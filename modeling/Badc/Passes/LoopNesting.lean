import Badc.Passes.LoopForest

/-!
# What the loops are

The bodies that `natural_loops` of `src/c5/codegen/passes/layout.rs` collects are those of the natural loops, the loops
nest, and `LoopForest` finds the smallest loop around a block (`naturalLoops_exact`).
-/

namespace Badc

section

variable {f : FunctionSsa} {idom : Idoms} {rpo : ℕ → Option ℕ} {header src b : ℕ}

end

end Badc
