import Badc.Ssa.Held

/-!
# Constants through phis

`imm_through_phis` of `src/c5/codegen/passes/constfold.rs`: the constant a value holds, read off
an immediate or off a merge whose entries all supply the same one.  An `Undef` entry may be any
value, so it takes the one the others agree on; where none is merged in, the constant is the value
in every state of a run (`Reaches.immThroughPhis`).
-/

namespace Badc

/-- What all elements of a list decide, the inner `none` standing for an empty list; nothing at
the first element that decides nothing or something else. -/
def agree {α β : Type} [DecidableEq β] (decided : α → Option β) (l : List α) :
    Option (Option β) :=
  l.foldlM (fun merged a => do
    let d ← decided a
    if merged.isSome ∧ merged ≠ some d then none else some (some d)) none

/-- Where a list agrees, each element decides the common value. -/
lemma agree_eq_some {α β : Type} [DecidableEq β] {decided : α → Option β} {l : List α} {t : β}
    (h : agree decided l = some (some t)) : ∀ a ∈ l, decided a = some t := by
  unfold agree at h
  generalize (none : Option β) = acc at h
  have key : (acc = none ∨ acc = some t) ∧ ∀ a ∈ l, decided a = some t := by
    induction l generalizing acc with
    | nil =>
      simp only [List.foldlM_nil, pure, Option.some.injEq] at h
      simp [h]
    | cons a l ih =>
      simp only [List.foldlM_cons, bind, Option.bind_eq_some_iff] at h
      obtain ⟨acc', ⟨d, hd, hacc⟩, hrest⟩ := h
      split at hacc
      · cases hacc
      · rename_i hne
        obtain rfl := Option.some.inj hacc
        obtain ⟨hd', hall⟩ := ih (some d) hrest
        have hdt : d = t := by simpa using hd'
        subst hdt
        refine ⟨?_, List.forall_mem_cons.mpr ⟨hd, hall⟩⟩
        cases acc with
        | none => exact Or.inl rfl
        | some c => exact Or.inr (by simpa using hne)
  exact key.2

/-- Recursion budget for the multi-incoming phi merge. -/
def phiMergeDepth : ℕ := 4

/-- The constant an instruction itself supplies, where it is not marked single precision.  An
instruction reads an indeterminate value as zero. -/
def immLeaf (insts : List Inst) (f32Values : List Bool) (v : ℕ) : Option Word :=
  if isMarked f32Values v then none
  else match insts[v]? with
    | some (.imm k) => some k
    | some .undef => some 0
    | _ => none

/-- The constant `v` holds, reached through at most `depth` phis. -/
def immThroughPhisDepth (insts : List Inst) (f32Values : List Bool) : ℕ → ℕ → Option Word
  | 0, v => immLeaf insts f32Values v
  | depth + 1, v =>
    match insts[v]? with
    | some (.phi incoming _) =>
        (agree (fun q => immThroughPhisDepth insts f32Values depth q.2)
          (incoming.filter fun q => insts[q.2]? ≠ some .undef)).join
    | _ => immLeaf insts f32Values v

/-- The constant `v` holds. -/
def immThroughPhis (insts : List Inst) (f32Values : List Bool) (v : ℕ) : Option Word :=
  immThroughPhisDepth insts f32Values phiMergeDepth v

/-- `u` is merged into `v` through phis. -/
inductive PhiSource (f : FunctionSsa) : ℕ → ℕ → Prop
  | refl (v : ℕ) : PhiSource f v v
  | income {v o u : ℕ} {incoming : List (ℕ × ℕ)} {kind : LoadKind} {p : ℕ} :
      f.insts[v]? = some (.phi incoming kind) → (p, o) ∈ incoming → PhiSource f o u →
      PhiSource f v u

/-- No indeterminate value is merged into `v`. -/
def NoUndef (f : FunctionSsa) (v : ℕ) : Prop := ∀ u, PhiSource f v u → f.insts[u]? ≠ some .undef

namespace Machine

variable {m : Machine} {f : FunctionSsa} {w : World m.Ext} {s : State m.Ext}

/-- A value resolved to a constant holds it. -/
theorem Reaches.immThroughPhis (hf : Verified f) (h : m.Reaches f w s) {u : ℕ} {y : Val}
    (hu : Held f s.block s.pc u) (hy : s.regs u = some y) (hundef : NoUndef f u)
    {f32Values : List Bool} {depth : ℕ} {k : Word}
    (hk : immThroughPhisDepth f.insts f32Values depth u = some k) : y = .word k := by
  revert hundef depth k
  refine h.held_rule hf (fun u y => NoUndef f u → ∀ {depth : ℕ} {k : Word},
    immThroughPhisDepth f.insts f32Values depth u = some k → y = .word k) ?_ ?_ hu hy
  · intro s inst r x _ _ _ hinst hphi hr hx hundef depth k hk
    have hleaf : immLeaf f.insts f32Values s.pc = some k := by
      cases depth with
      | zero => exact hk
      | succ depth =>
        rw [immThroughPhisDepth, hinst] at hk
        cases inst with
        | phi incoming kind => cases hphi
        | _ => exact hk
    rw [immLeaf, hinst, Option.ite_none_left_eq_some] at hleaf
    cases inst with
    | imm k' =>
      obtain ⟨x', hx', rfl⟩ := exec_pure rfl hr
      obtain rfl : k' = x' := Option.some.inj hx'
      simp only [Regs.set_self, Option.some.injEq] at hx hleaf
      rw [← hx, hleaf.2]
    | undef => exact absurd hinst (hundef _ (.refl _))
    | _ => cases hleaf.2
  · intro s blk b v incoming kind o x _ _ _ _ _ hinst ho _ ih hundef depth k hk
    cases depth with
    | zero => simp [immThroughPhisDepth, immLeaf, hinst] at hk
    | succ depth =>
      rw [immThroughPhisDepth, hinst] at hk
      have hsrc : NoUndef f o := fun u hu => hundef u (.income hinst ho hu)
      have hall := agree_eq_some (Option.join_eq_some_iff.mp hk) (s.block, o)
        (List.mem_filter.mpr ⟨ho, decide_eq_true (hsrc o (.refl o))⟩)
      exact ih hsrc hall

end Machine

end Badc
