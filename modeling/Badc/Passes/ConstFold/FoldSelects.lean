import Badc.Passes.PhiMerge

/-!
# Folding the consumers of a select

`fold_selects` of `src/c5/codegen/passes/constfold.rs`: a consumer of a phi that can produce only
a few constants (`selectValues`) is evaluated with the phi bound to each of them (`evalWith`), and
becomes an immediate where the answer is the same for all.  From each such phi the walk goes
forward over its use chain (`Walk.step`), so a consumer folds at any distance down it.
-/

namespace Badc

/-- `imm_of`: the integer constant `v` resolves to. -/
def immOf (f : FunctionSsa) (v : ℕ) : Option Word := immThroughPhis f.insts f.f32Values v

/-- The constant the operation `v` computes from `l` and `r`, at the width it is marked for. -/
def foldBinopOf (f : FunctionSsa) (v : ℕ) (op : BinOp) (l r : Word) : Option Word :=
  if isNarrowDiv f v then foldDiv32 op l r else foldAtWidth op l r (isCmp32 f v)

/-- Node budget for one evaluation. -/
def selectEvalBudget : ℕ := 96

/-- Evaluate `v` with `pivot` bound to `bind`; the rest of the budget is left.  Every call takes
from the budget, so `fuel` above it is not used up (`evalWith_succ`). -/
def evalWith (f : FunctionSsa) (pivot : ℕ) (bind : Word) : ℕ → ℕ → ℕ → Option (Word × ℕ)
  | 0, _, _ => none
  | fuel + 1, v, budget =>
    if budget = 0 then none
    else if v = pivot then some (bind, budget - 1)
    else match immOf f v with
    | some k => some (k, budget - 1)
    | none =>
      if isMarked f.f32Values v then none
      else match f.insts[v]? with
      | some (.extend a kind _) =>
          (evalWith f pivot bind fuel a (budget - 1)).map fun x => (evalExtend x.1 kind, x.2)
      | some (.bswap a width) =>
          (evalWith f pivot bind fuel a (budget - 1)).map fun x => (evalBswap x.1 width, x.2)
      | some (.bitCount op a width) =>
          (evalWith f pivot bind fuel a (budget - 1)).map fun x => (evalBitCount op x.1 width, x.2)
      | some (.binopI op lhs k) =>
          (evalWith f pivot bind fuel lhs (budget - 1)).bind fun l =>
            (foldBinopOf f v op l.1 k).map fun x => (x, l.2)
      | some (.binop op lhs rhs) =>
          (evalWith f pivot bind fuel lhs (budget - 1)).bind fun l =>
            (evalWith f pivot bind fuel rhs l.2).bind fun r =>
              (foldBinopOf f v op l.1 r.1).map fun x => (x, r.2)
      | _ => none

/-- Nesting budget for the constants of a phi. -/
def selectSetDepth : ℕ := 4

/-- Cap on the constants of a phi. -/
def selectSetMax : ℕ := 8

/-- Accumulate the distinct constants `v` can produce; none where it may be another value or the
cap is passed. -/
def collectSelectValues (f : FunctionSsa) : ℕ → ℕ → List Word → Option (List Word)
  | depth, v, out =>
    match immOf f v with
    | some k =>
      let out := if k ∈ out then out else out ++ [k]
      if out.length ≤ selectSetMax then some out else none
    | none =>
      match depth, f.insts[v]? with
      | depth + 1, some (.phi incoming kind) =>
        if kind = .f32 ∨ kind = .f64 then none
        else incoming.foldlM (fun out q => collectSelectValues f depth q.2 out) out
      | _, _ => none

/-- The constants a phi can produce, where there is more than one. -/
def selectValues (f : FunctionSsa) (v : ℕ) : Option (List Word) :=
  match f.insts[v]? with
  | some (.phi ..) =>
    (collectSelectValues f selectSetDepth v []).filter fun values => 1 < values.length
  | _ => none

/-- The instructions that read each value, once for each operand. -/
def userList (f : FunctionSsa) (v : ℕ) : List ℕ :=
  if v < f.insts.length then
    f.insts.zipIdx.flatMap fun p => (p.1.operands.filter fun o => o = v).map fun _ => p.2
  else []

/-- Whether the walk goes through an instruction. -/
def Inst.isFoldable : Inst → Bool
  | .extend .. | .bswap .. | .bitCount .. | .binopI .. | .binop .. => true
  | _ => false

/-- The answer of `u` common to all constants of the pivot. -/
def uniformOf (f : FunctionSsa) (u pivot : ℕ) : List Word → Option Word → Option Word
  | [], uniform => uniform
  | bind :: values, uniform =>
    match evalWith f pivot bind (selectEvalBudget + 1) u selectEvalBudget with
    | some (k, _) =>
      if uniform = none ∨ uniform = some k then uniformOf f u pivot values (some k) else none
    | none => none

/-- A consumer's answer: none for one marked single precision. -/
def foldedTo (f : FunctionSsa) (u pivot : ℕ) (values : List Word) : Option Word :=
  if isMarked f.f32Values u then none else uniformOf f u pivot values none

/-- Replace the instruction at `u` by an immediate. -/
def FunctionSsa.setImm (f : FunctionSsa) (u : ℕ) (k : Word) : FunctionSsa :=
  { f with insts := f.insts.set u (.imm k) }

/-- The state of one walk: the function so far, the walk that last saw each value, the queue from
its end, and whether anything changed. -/
structure Walk where
  func : FunctionSsa
  seen : ℕ → ℕ
  queue : List ℕ
  changed : Bool

/-- One round: the next queued value, unless this walk has seen it. -/
def Walk.step (users : ℕ → List ℕ) (pivot : ℕ) (values : List Word) (stamp : ℕ) (s : Walk) :
    Option Walk :=
  match s.queue with
  | [] => none
  | u :: queue =>
    if s.seen u = stamp then some { s with queue }
    else
      let s := { s with seen := Function.update s.seen u stamp, queue }
      if (s.func.insts[u]?).any Inst.isFoldable then
        let s := match foldedTo s.func u pivot values with
          | some k => { s with func := s.func.setImm u k, changed := true }
          | none => s
        some { s with queue := (users u).reverse ++ s.queue }
      else some s

/-- Uses in the function: a walk queues no more. -/
def useCount (f : FunctionSsa) : ℕ := ((List.range f.insts.length).map fun v =>
  (userList f v).length).sum

/-- The walk from one select. -/
def walkFrom (f : FunctionSsa) (s : Walk) (select : (ℕ × List Word) × ℕ) : Walk :=
  let ((pivot, values), walk) := select
  let users := userList f
  whileSome (Walk.step users pivot values (walk + 1)) ((users pivot).length + useCount f)
    { s with queue := (users pivot).reverse }

/-- The selects, found before anything is folded. -/
def selects (f : FunctionSsa) : List (ℕ × List Word) :=
  (List.range f.insts.length).filterMap fun v => (selectValues f v).map fun values => (v, values)

/-- Fold every consumer of a select whose answer does not depend on it, and whether anything
changed. -/
def foldSelects (f : FunctionSsa) : FunctionSsa × Bool :=
  let s := (selects f).zipIdx.foldl (walkFrom f) ⟨f, fun _ => 0, [], false⟩
  (s.func, s.changed)

/-! ## The evaluation and the walk end -/

variable {f : FunctionSsa} {pivot u v : ℕ} {bind : Word} {values : List Word}

/-- An evaluation takes from the budget. -/
lemma evalWith_lt {fuel budget : ℕ} {x : Word × ℕ}
    (h : evalWith f pivot bind fuel v budget = some x) : x.2 < budget := by
  induction fuel generalizing v budget x with
  | zero => cases h
  | succ fuel ih =>
    unfold evalWith at h
    split at h
    · cases h
    · split at h
      · obtain rfl := Option.some.inj h
        dsimp only
        omega
      · split at h
        · obtain rfl := Option.some.inj h
          dsimp only
          omega
        · obtain ⟨-, h⟩ := Option.ite_none_left_eq_some.mp h
          split at h
          · obtain ⟨y, hy, rfl⟩ := Option.map_eq_some_iff.mp h
            have := ih hy
            dsimp only
            omega
          · obtain ⟨y, hy, rfl⟩ := Option.map_eq_some_iff.mp h
            have := ih hy
            dsimp only
            omega
          · obtain ⟨y, hy, rfl⟩ := Option.map_eq_some_iff.mp h
            have := ih hy
            dsimp only
            omega
          · obtain ⟨y, hy, h⟩ := Option.bind_eq_some_iff.mp h
            obtain ⟨z, -, rfl⟩ := Option.map_eq_some_iff.mp h
            have := ih hy
            dsimp only
            omega
          · obtain ⟨y, hy, h⟩ := Option.bind_eq_some_iff.mp h
            obtain ⟨z, hz, h⟩ := Option.bind_eq_some_iff.mp h
            obtain ⟨x, -, rfl⟩ := Option.map_eq_some_iff.mp h
            have := ih hy
            have := ih hz
            dsimp only
            omega
          · cases h

/-- Fuel above the budget is not used up. -/
theorem evalWith_succ {fuel budget : ℕ} (h : budget < fuel) :
    evalWith f pivot bind (fuel + 1) v budget = evalWith f pivot bind fuel v budget := by
  induction fuel generalizing v budget with
  | zero => omega
  | succ fuel ih =>
    rw [evalWith, evalWith]
    split
    · rfl
    · rename_i hb
      have hrec : ∀ (a b : ℕ), b < budget →
          evalWith f pivot bind (fuel + 1) a b = evalWith f pivot bind fuel a b := fun a b hb' =>
        ih (by omega)
      split
      · rfl
      · split
        · rfl
        · split
          · rfl
          · split
            · rw [hrec _ _ (by omega)]
            · rw [hrec _ _ (by omega)]
            · rw [hrec _ _ (by omega)]
            · rw [hrec _ _ (by omega)]
            · rw [hrec _ _ (by omega)]
              refine Option.bind_congr fun l hl => ?_
              rw [hrec _ _ ((evalWith_lt hl).trans (by omega))]
            · rfl

/-- Uses of the values a walk has yet to see. -/
def Walk.unseen (f : FunctionSsa) (stamp : ℕ) (s : Walk) : ℕ :=
  ∑ v ∈ (Finset.range f.insts.length).filter fun v => s.seen v ≠ stamp, (userList f v).length

/-- Seeing a value takes its uses from those left. -/
lemma Walk.unseen_update {s : Walk} {stamp : ℕ} (hu : u < f.insts.length)
    (hseen : s.seen u ≠ stamp) (func : FunctionSsa) (queue : List ℕ) (changed : Bool) :
    (userList f u).length + Walk.unseen f stamp
      ⟨func, Function.update s.seen u stamp, queue, changed⟩ = Walk.unseen f stamp s := by
  have hmem : u ∈ (Finset.range f.insts.length).filter fun v => s.seen v ≠ stamp := by
    simp [hu, hseen]
  unfold Walk.unseen
  rw [← Finset.add_sum_erase _ _ hmem]
  congr 1
  refine Finset.sum_congr ?_ fun _ _ => rfl
  ext v
  by_cases hv : v = u
  · simp [hv]
  · simp [hv]

/-- **The walk ends**: with as many rounds as there are uses to queue, nothing is left queued. -/
theorem walkFrom_queue (s : Walk) (select : (ℕ × List Word) × ℕ)
    (hlen : s.func.insts.length = f.insts.length) : (walkFrom f s select).queue = [] := by
  obtain ⟨⟨pivot, values⟩, walk⟩ := select
  have hdone : Walk.step (userList f) pivot values (walk + 1) (walkFrom f s ((pivot, values), walk))
      = none := by
    refine whileSome_done (fun t => t.func.insts.length = f.insts.length)
      (fun t => t.queue.length + t.unseen f (walk + 1)) ?_ hlen ?_
    · intro t t' ht hstep
      unfold Walk.step at hstep
      split at hstep
      · cases hstep
      · rename_i u queue hqueue
        rw [hqueue, List.length_cons]
        split at hstep
        · obtain rfl := Option.some.inj hstep
          exact ⟨ht, by simp only [Walk.unseen]; omega⟩
        · rename_i hseen
          dsimp only at hstep
          split at hstep
          · rename_i hfold
            have hu : u < f.insts.length := by
              rw [← ht]
              by_contra hge
              rw [List.getElem?_eq_none (by omega)] at hfold
              cases hfold
            cases hk : foldedTo t.func u pivot values with
            | none =>
              rw [hk] at hstep
              obtain rfl := Option.some.inj hstep
              have hsum := Walk.unseen_update hu hseen t.func ((userList f u).reverse ++ queue)
                t.changed
              refine ⟨ht, ?_⟩
              simp only [List.length_append, List.length_reverse]
              omega
            | some k =>
              rw [hk] at hstep
              obtain rfl := Option.some.inj hstep
              have hsum := Walk.unseen_update hu hseen (t.func.setImm u k)
                ((userList f u).reverse ++ queue) true
              refine ⟨by simpa [FunctionSsa.setImm] using ht, ?_⟩
              simp only [List.length_append, List.length_reverse]
              omega
          · obtain rfl := Option.some.inj hstep
            refine ⟨ht, ?_⟩
            have hle : Walk.unseen f (walk + 1)
                ⟨t.func, Function.update t.seen u (walk + 1), queue, t.changed⟩ ≤
                t.unseen f (walk + 1) := by
              refine Finset.sum_le_sum_of_subset fun v hv => ?_
              rw [Finset.mem_filter] at hv ⊢
              refine ⟨hv.1, fun h => hv.2 ?_⟩
              by_cases hvu : v = u
              · simp [hvu]
              · simp [hvu, h]
            dsimp only
            omega
    · have hle : Walk.unseen f (walk + 1) { s with queue := (userList f pivot).reverse } ≤
          useCount f := by
        rw [useCount, ← List.sum_toFinset _ List.nodup_range, List.toFinset_range]
        exact Finset.sum_le_sum_of_subset (Finset.filter_subset _ _)
      simp only [List.length_reverse]
      omega
  generalize walkFrom f s ((pivot, values), walk) = t at hdone
  unfold Walk.step at hdone
  split at hdone
  · assumption
  · split at hdone
    · cases hdone
    · dsimp only at hdone
      split at hdone
      · cases hdone
      · cases hdone

/-- A merge with a consumer that feeds it. -/
def mergedAgain : FunctionSsa where
  insts := [.imm 1, .phi [(0, 0), (1, 2)] .i64, .binopI .ugt 1 0]
  blocks := [{ instRange := ⟨0, 1⟩, terminator := .jmp 1 }, { instRange := ⟨1, 3⟩, terminator := .bz 2 1 1 }]

theorem walkFrom_queue_mergedAgain :
    (walkFrom mergedAgain ⟨mergedAgain, fun _ => 0, [], false⟩ ((1, [1, 2]), 0)).queue = [] :=
  walkFrom_queue _ _ rfl

end Badc
