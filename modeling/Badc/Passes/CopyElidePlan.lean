import Badc.Passes.CopyElide

/-!
# What a plan says

The addresses of a temporary add constants to its base (`base_of_addrsOf`).  Of a copy with a plan each use of
such an address is accounted for (`Planned`).
-/

namespace Badc.CopyElide

variable {f : FunctionSsa} {slot slot' off off' : ℤ} {start mcpy a b u w : ℕ} {addrs : ℕ → Option ℤ} {plan : Plan}
  {s s' : Scan} {l : List ℕ}

/-! ## Addresses -/

/-- More fuel reads the same address. -/
lemma baseOf_mono {n k : ℕ} {p : ℤ × ℤ} (hnk : n ≤ k) (h : baseOf f n a = some p) : baseOf f k a = some p := by
  induction n generalizing a k p with
  | zero => cases h
  | succ n ih =>
    obtain ⟨k, rfl⟩ : ∃ k', k = k' + 1 := ⟨k - 1, by omega⟩
    unfold baseOf at h ⊢
    split at h
    · exact h
    · rename_i lhs c hinst
      obtain ⟨b, hb, hp⟩ := Option.map_eq_some_iff.mp h
      exact Option.map_eq_some_iff.mpr ⟨b, ih (by omega) hb, hp⟩
    · cases h

lemma base_of_localAddr {n : ℕ} (ha : f.insts[a]? = some (.localAddr slot)) (hslot : slot < 0) :
    baseOf f (n + 1) a = some (slot, 0) := by
  rw [baseOf, ha]
  exact if_pos hslot

lemma baseOf_add {n lhs : ℕ} {k : Word} (ha : f.insts[a]? = some (.binopI .add lhs k)) :
    baseOf f (n + 1) a = (baseOf f n lhs).map fun b => (b.1, b.2 + k.toInt) := by
  rw [baseOf, ha]

/-- An address value is a base, or adds a constant to one. -/
lemma baseOf_succ {n : ℕ} (h : baseOf f (n + 1) a = some (slot, off)) :
    f.insts[a]? = some (.localAddr slot) ∧ slot < 0 ∧ off = 0 ∨
      ∃ lhs k o, f.insts[a]? = some (.binopI .add lhs k) ∧ baseOf f n lhs = some (slot, o) ∧ off = o + k.toInt := by
  unfold baseOf at h
  split at h
  · rename_i slot' hinst
    split at h
    · rename_i hneg
      obtain ⟨rfl, rfl⟩ := Prod.mk.inj (Option.some.inj h)
      exact .inl ⟨hinst, hneg, rfl⟩
    · cases h
  · rename_i lhs k hinst
    obtain ⟨⟨slot', o⟩, hb, hp⟩ := Option.map_eq_some_iff.mp h
    obtain ⟨rfl, rfl⟩ := Prod.mk.inj hp
    exact .inr ⟨lhs, k, o, hinst, hb, rfl⟩
  · cases h

lemma slot_neg_of_baseOf {n : ℕ} (h : baseOf f n a = some (slot, off)) : slot < 0 := by
  induction n generalizing a off with
  | zero => cases h
  | succ n ih =>
    rcases baseOf_succ h with ⟨_, hneg, _⟩ | ⟨lhs, k, o, _, hlhs, _⟩
    · exact hneg
    · exact ih hlhs

/-- The temporary's base. -/
lemma localAddr_of_named (h : namedHere f slot start mcpy = true) (ha : a ∈ named f slot) :
    f.insts[a]? = some (.localAddr slot) ∧ start ≤ a ∧ a ≤ mcpy := by
  simp only [namedHere, Bool.and_eq_true, List.all_eq_true, decide_eq_true_eq] at h
  obtain ⟨⟨hlocal, hstart⟩, hmcpy⟩ := h.2 a ha
  refine ⟨?_, hstart, hmcpy⟩
  split at hlocal
  · rename_i off hinst
    have hslot := of_decide_eq_true (List.mem_filter.mp ha).2
    rw [hinst] at hslot
    rw [hinst, Option.some.inj hslot]
  · cases hlocal

lemma mem_named (ha : f.insts[a]? = some (.localAddr slot)) : a ∈ named f slot := by
  obtain ⟨hlt, _⟩ := List.getElem?_eq_some_iff.mp ha
  rw [named, List.mem_filter, List.mem_range, ha]
  exact ⟨hlt, decide_eq_true rfl⟩

lemma addInterior_add {i lhs : ℕ} {k : Word} (hinst : f.insts[i]? = some (.binopI .add lhs k)) :
    addInterior f addrs i =
      (addrs lhs).elim addrs fun off => Function.update addrs i (some (off + k.toInt)) := by
  simp only [addInterior, hinst]
  cases addrs lhs <;> rfl

lemma addInterior_other {i : ℕ} (hinst : ∀ lhs k, f.insts[i]? ≠ some (.binopI .add lhs k)) :
    addInterior f addrs i = addrs := by
  unfold addInterior
  split
  · rename_i lhs k h
    exact absurd h (hinst lhs k)
  · rfl

/-- An interior address that is entered. -/
lemma addInterior_eq_some {i : ℕ} (h : addInterior f addrs i a = some off) :
    addrs a = some off ∨ a = i ∧ ∃ lhs k o, f.insts[a]? = some (.binopI .add lhs k) ∧ addrs lhs = some o ∧
      off = o + k.toInt := by
  by_cases hinst : ∃ lhs k, f.insts[i]? = some (.binopI .add lhs k)
  · obtain ⟨lhs, k, hinst⟩ := hinst
    rw [addInterior_add hinst] at h
    cases ho : addrs lhs with
    | none =>
      rw [ho] at h
      exact .inl h
    | some o =>
      rw [ho] at h
      rw [Option.elim_some] at h
      by_cases hai : a = i
      · subst hai
        rw [Function.update_self] at h
        exact .inr ⟨rfl, lhs, k, o, hinst, ho, (Option.some.inj h).symm⟩
      · rw [Function.update_of_ne hai] at h
        exact .inl h
  · push Not at hinst
    rw [addInterior_other hinst] at h
    exact .inl h

/-- An address stays entered. -/
lemma addInterior_isSome {i : ℕ} (h : (addrs a).isSome) : (addInterior f addrs i a).isSome := by
  by_cases hinst : ∃ lhs k, f.insts[i]? = some (.binopI .add lhs k)
  · obtain ⟨lhs, k, hinst⟩ := hinst
    rw [addInterior_add hinst]
    cases addrs lhs with
    | none => exact h
    | some o =>
      rw [Option.elim_some]
      by_cases hai : a = i
      · subst hai
        rw [Function.update_self]
        rfl
      · rw [Function.update_of_ne hai]
        exact h
  · push Not at hinst
    rw [addInterior_other hinst]
    exact h

/-- The addresses of a temporary name its slot, in the block up to the copy.  Additions are entered in order, so
that each adds to a base or to an earlier one. -/
lemma base_of_addrsOf (hhere : namedHere f slot start mcpy = true) (hslot : slot < 0)
    (h : addrsOf f slot start mcpy a = some off) : base f a = some (slot, off) ∧ start ≤ a ∧ a ≤ mcpy := by
  have hfold : ∀ n, start + n ≤ mcpy + 1 → ∀ a off,
      (List.range' start n).foldl (addInterior f) (fun a => if a ∈ named f slot then some 0 else none) a = some off →
      f.insts[a]? = some (.localAddr slot) ∧ off = 0 ∧ start ≤ a ∧ a ≤ mcpy ∨
        baseOf f (a + 2) a = some (slot, off) ∧ start ≤ a ∧ a < start + n ∧ a < f.insts.length := by
    intro n
    induction n with
    | zero =>
      intro _ a off h
      rw [List.range'_zero, List.foldl_nil] at h
      split at h
      · rename_i ha
        obtain ⟨hinst, hbounds⟩ := localAddr_of_named hhere ha
        exact .inl ⟨hinst, (Option.some.inj h).symm, hbounds⟩
      · cases h
    | succ n ih =>
      intro hn a off h
      rw [List.range'_1_concat, List.foldl_concat] at h
      rcases addInterior_eq_some h with h | ⟨rfl, lhs, k, o, hinst, ho, rfl⟩
      · rcases ih (by omega) a off h with hroot | ⟨hbase, hlo, hhi, hlen⟩
        · exact .inl hroot
        · exact .inr ⟨hbase, hlo, by omega, hlen⟩
      · refine .inr ⟨?_, by omega, by omega, (List.getElem?_eq_some_iff.mp hinst).1⟩
        rw [baseOf_add hinst]
        refine Option.map_eq_some_iff.mpr ⟨(slot, o), ?_, rfl⟩
        rcases ih (by omega) lhs o ho with ⟨hlhs, rfl, _⟩ | ⟨hbase, _, hlt, _⟩
        · exact base_of_localAddr hlhs hslot
        · exact baseOf_mono (by omega) hbase
  by_cases hle : start ≤ mcpy
  · rcases hfold (mcpy - start) (by omega) a off h with ⟨hinst, rfl, hbounds⟩ | ⟨hbase, hlo, hhi, hlen⟩
    · exact ⟨base_of_localAddr hinst hslot, hbounds⟩
    · exact ⟨baseOf_mono (by omega) hbase, hlo, by omega⟩
  · rw [addrsOf, show mcpy - start = 0 by omega, List.range'_zero, List.foldl_nil] at h
    split at h
    · rename_i ha
      have := (localAddr_of_named hhere ha).2
      omega
    · cases h

lemma addrsOf_isSome (ha : f.insts[a]? = some (.localAddr slot)) : (addrsOf f slot start mcpy a).isSome := by
  have hfold : ∀ l : List ℕ, ∀ addrs : ℕ → Option ℤ, (addrs a).isSome → (l.foldl (addInterior f) addrs a).isSome := by
    intro l
    induction l with
    | nil => exact fun _ h => h
    | cons i l ih => exact fun addrs h => ih _ (addInterior_isSome h)
  refine hfold _ _ ?_
  rw [if_pos (mem_named ha)]
  rfl

/-! ## Uses -/

/-- A write through the address. -/
def WriteUse (f : FunctionSsa) (mcpy a u : ℕ) : Prop :=
  u ≠ mcpy ∧ ∃ inst, f.insts[u]? = some inst ∧ (writeSpan a inst).isSome

/-- A use that keeps the address: a write or an interior address. -/
def ReachUse (f : FunctionSsa) (addrs : ℕ → Option ℤ) (mcpy a u : ℕ) : Prop :=
  u ≠ mcpy ∧ ∃ inst, f.insts[u]? = some inst ∧ ((writeSpan a inst).isSome ∨ (addrs u).isSome)

/-- A use that a plan allows. -/
def OkUse (f : FunctionSsa) (addrs : ℕ → Option ℤ) (mcpy a u : ℕ) : Prop :=
  u = mcpy ∨ ReachUse f addrs mcpy a u ∨ ∃ inst, f.insts[u]? = some inst ∧ inst.isPure = true ∧ users f u = []

/-- An address with a use that keeps it. -/
def Reached (f : FunctionSsa) (addrs : ℕ → Option ℤ) (mcpy a : ℕ) : Prop :=
  ∃ u ∈ users f a, ReachUse f addrs mcpy a u

/-- A use says whether it is allowed, a write, and one that keeps the address. -/
lemma scanUser_spec (h : scanUser f addrs mcpy a off s u = some s') :
    OkUse f addrs mcpy a u ∧ s'.plan.redirects = s.plan.redirects ∧ s'.plan.roots = s.plan.roots ∧
      (∀ w, w ∈ s'.writes ↔ w ∈ s.writes ∨ w = u ∧ WriteUse f mcpy a u) ∧
      (s'.reached = true ↔ s.reached = true ∨ ReachUse f addrs mcpy a u) := by
  unfold scanUser at h
  split at h
  · rename_i hu
    obtain rfl := Option.some.inj h
    refine ⟨.inl hu, rfl, rfl, fun w => ⟨.inl, ?_⟩, ⟨.inl, ?_⟩⟩
    · rintro (hw | ⟨_, hne, _⟩)
      · exact hw
      · exact absurd hu hne
    · rintro (hr | ⟨hne, _⟩)
      · exact hr
      · exact absurd hu hne
  · rename_i hne
    split at h
    · cases h
    · rename_i inst hinst
      split at h
      · rename_i disp width hspan
        obtain rfl := Option.some.inj h
        have hwrite : WriteUse f mcpy a u := ⟨hne, inst, hinst, by rw [hspan]; rfl⟩
        have hreach : ReachUse f addrs mcpy a u := ⟨hne, inst, hinst, .inl (by rw [hspan]; rfl)⟩
        refine ⟨.inr (.inl hreach), rfl, rfl, fun w => ?_, ⟨fun _ => .inr hreach, fun _ => rfl⟩⟩
        rw [List.mem_append, List.mem_singleton]
        exact or_congr_right ⟨fun hw => ⟨hw, hwrite⟩, fun hw => hw.1⟩
      · rename_i hspan
        have hnot : ¬WriteUse f mcpy a u := by
          rintro ⟨_, inst', hinst', hsome⟩
          obtain rfl := Option.some.inj (hinst.symm.trans hinst')
          rw [hspan] at hsome
          cases hsome
        split at h
        · rename_i haddr
          obtain rfl := Option.some.inj h
          have hreach : ReachUse f addrs mcpy a u := ⟨hne, inst, hinst, .inr haddr⟩
          exact ⟨.inr (.inl hreach), rfl, rfl, fun w => ⟨.inl, fun hw => hw.resolve_right fun h => hnot h.2⟩,
            ⟨fun _ => .inr hreach, fun _ => rfl⟩⟩
        · rename_i haddr
          split at h
          · rename_i hpure
            obtain rfl := Option.some.inj h
            rw [Bool.and_eq_true, List.isEmpty_iff] at hpure
            refine ⟨.inr (.inr ⟨inst, hinst, hpure⟩), rfl, rfl,
              fun w => ⟨.inl, fun hw => hw.resolve_right fun h => hnot h.2⟩, ⟨.inl, fun hr => ?_⟩⟩
            refine hr.resolve_right ?_
            rintro ⟨_, inst', hinst', hsome | hsome⟩
            · exact hnot ⟨hne, inst', hinst', hsome⟩
            · exact haddr hsome
          · cases h

/-- The uses of an address together. -/
lemma scanUsers_spec (h : l.foldlM (scanUser f addrs mcpy a off) s = some s') :
    (∀ u ∈ l, OkUse f addrs mcpy a u) ∧ s'.plan.redirects = s.plan.redirects ∧ s'.plan.roots = s.plan.roots ∧
      (∀ w, w ∈ s'.writes ↔ w ∈ s.writes ∨ w ∈ l ∧ WriteUse f mcpy a w) ∧
      (s'.reached = true ↔ s.reached = true ∨ ∃ u ∈ l, ReachUse f addrs mcpy a u) := by
  induction l generalizing s with
  | nil =>
    obtain rfl := Option.some.inj h
    simp
  | cons u l ih =>
    rw [List.foldlM_cons] at h
    obtain ⟨s₁, hs₁, h⟩ := Option.bind_eq_some_iff.mp h
    obtain ⟨hok, hred, hroots, hwrites, hreached⟩ := scanUser_spec hs₁
    obtain ⟨hok', hred', hroots', hwrites', hreached'⟩ := ih h
    refine ⟨List.forall_mem_cons.mpr ⟨hok, hok'⟩, hred'.trans hred, hroots'.trans hroots, fun w => ?_, ?_⟩
    · rw [hwrites', hwrites, List.mem_cons, or_assoc]
      refine or_congr_right ⟨?_, ?_⟩
      · rintro (⟨rfl, hw⟩ | ⟨hl, hw⟩)
        · exact ⟨.inl rfl, hw⟩
        · exact ⟨.inr hl, hw⟩
      · rintro ⟨rfl | hl, hw⟩
        · exact .inl ⟨rfl, hw⟩
        · exact .inr ⟨hl, hw⟩
    · rw [hreached', hreached, or_assoc]
      exact or_congr_right (by rw [List.exists_mem_cons_iff])

/-- Whether an instruction is a base of a slot. -/
def IsBase (f : FunctionSsa) (a : ℕ) : Prop := ∃ slot, f.insts[a]? = some (.localAddr slot)

/-- An address with its uses. -/
lemma scanAddr_spec (h : scanAddr f addrs mcpy s a = some s') :
    ((addrs a).isSome → ∀ u ∈ users f a, OkUse f addrs mcpy a u) ∧
      (∀ r o, (r, o) ∈ s'.plan.redirects ↔ (r, o) ∈ s.plan.redirects ∨
        r = a ∧ addrs a = some o ∧ o ≠ 0 ∧ Reached f addrs mcpy a) ∧
      (∀ x, x ∈ s'.plan.roots ↔ x ∈ s.plan.roots ∨
        x = a ∧ IsBase f a ∧ (addrs a).isSome ∧ Reached f addrs mcpy a) ∧
      ∀ w, w ∈ s'.writes ↔ w ∈ s.writes ∨ (addrs a).isSome ∧ w ∈ users f a ∧ WriteUse f mcpy a w := by
  unfold scanAddr at h
  split at h
  · rename_i hnone
    obtain rfl := Option.some.inj h
    simp [hnone]
  · rename_i off hoff
    obtain ⟨s₁, hs₁, h⟩ := Option.bind_eq_some_iff.mp h
    obtain ⟨hok, hred, hroots, hwrites, hreached⟩ := scanUsers_spec hs₁
    have hreached' : s₁.reached = true ↔ Reached f addrs mcpy a := by
      rw [hreached]
      exact or_iff_right Bool.false_ne_true
    obtain rfl := Option.some.inj h
    rw [hoff]
    refine ⟨fun _ => hok, fun r o => ?_, fun x => ?_, fun w => ?_⟩
    · rw [← hred, ← hreached']
      have hmem : (r, o) ∈ (if s₁.reached ∧ off ≠ 0 then { s₁.plan with redirects := s₁.plan.redirects ++ [(a, off)] }
            else s₁.plan).redirects ↔
          (r, o) ∈ s₁.plan.redirects ∨ r = a ∧ some off = some o ∧ o ≠ 0 ∧ s₁.reached = true := by
        split
        · rename_i hcond
          rw [List.mem_append, List.mem_singleton, Prod.mk.injEq]
          refine or_congr_right ⟨?_, ?_⟩
          · rintro ⟨rfl, rfl⟩
            exact ⟨rfl, rfl, hcond.2, hcond.1⟩
          · rintro ⟨rfl, heq, _, _⟩
            exact ⟨rfl, (Option.some.inj heq).symm⟩
        · rename_i hcond
          refine ⟨.inl, fun hr => hr.resolve_right ?_⟩
          rintro ⟨_, heq, hne, hreach⟩
          obtain rfl := Option.some.inj heq
          exact hcond ⟨hreach, hne⟩
      refine Iff.trans (iff_of_eq ?_) hmem
      dsimp only
      split
      · split <;> rfl
      · rfl
    · rw [← hroots, ← hreached']
      have hplan : (if s₁.reached ∧ off ≠ 0 then { s₁.plan with redirects := s₁.plan.redirects ++ [(a, off)] }
          else s₁.plan).roots = s₁.plan.roots := by
        split <;> rfl
      dsimp only
      split
      · rename_i slot hinst
        split
        · rename_i hr
          dsimp only
          rw [hplan, List.mem_append, List.mem_singleton]
          exact or_congr_right ⟨fun hx => ⟨hx, ⟨slot, hx ▸ hinst⟩, rfl, hr⟩, fun hx => hx.1⟩
        · rename_i hr
          rw [hplan]
          exact ⟨.inl, fun hx => hx.resolve_right fun h => hr h.2.2.2⟩
      · rename_i hinst
        rw [hplan]
        refine ⟨.inl, fun hx => hx.resolve_right ?_⟩
        rintro ⟨_, ⟨slot, hslot⟩, _⟩
        exact hinst slot hslot
    · dsimp only
      rw [hwrites]
      exact or_congr_right ⟨fun h => ⟨rfl, h⟩, fun h => h.2⟩

/-- The addresses together. -/
lemma scanAddrs_spec (h : l.foldlM (scanAddr f addrs mcpy) s = some s') :
    (∀ a ∈ l, (addrs a).isSome → ∀ u ∈ users f a, OkUse f addrs mcpy a u) ∧
      (∀ r o, (r, o) ∈ s'.plan.redirects ↔ (r, o) ∈ s.plan.redirects ∨
        r ∈ l ∧ addrs r = some o ∧ o ≠ 0 ∧ Reached f addrs mcpy r) ∧
      (∀ x, x ∈ s'.plan.roots ↔ x ∈ s.plan.roots ∨
        x ∈ l ∧ IsBase f x ∧ (addrs x).isSome ∧ Reached f addrs mcpy x) ∧
      ∀ w, w ∈ s'.writes ↔ w ∈ s.writes ∨ ∃ a ∈ l, (addrs a).isSome ∧ w ∈ users f a ∧ WriteUse f mcpy a w := by
  induction l generalizing s with
  | nil =>
    obtain rfl := Option.some.inj h
    simp
  | cons a l ih =>
    rw [List.foldlM_cons] at h
    obtain ⟨s₁, hs₁, h⟩ := Option.bind_eq_some_iff.mp h
    obtain ⟨hok, hred, hroots, hwrites⟩ := scanAddr_spec hs₁
    obtain ⟨hok', hred', hroots', hwrites'⟩ := ih h
    refine ⟨List.forall_mem_cons.mpr ⟨hok, hok'⟩, fun r o => ?_, fun x => ?_, fun w => ?_⟩
    · rw [hred', hred, List.mem_cons, or_assoc]
      refine or_congr_right ⟨?_, ?_⟩
      · rintro (⟨rfl, hat⟩ | ⟨hl, hat⟩)
        · exact ⟨.inl rfl, hat⟩
        · exact ⟨.inr hl, hat⟩
      · rintro ⟨rfl | hl, hat⟩
        · exact .inl ⟨rfl, hat⟩
        · exact .inr ⟨hl, hat⟩
    · rw [hroots', hroots, List.mem_cons, or_assoc]
      refine or_congr_right ⟨?_, ?_⟩
      · rintro (⟨rfl, hat⟩ | ⟨hl, hat⟩)
        · exact ⟨.inl rfl, hat⟩
        · exact ⟨.inr hl, hat⟩
      · rintro ⟨rfl | hl, hat⟩
        · exact .inl ⟨rfl, hat⟩
        · exact .inr ⟨hl, hat⟩
    · rw [hwrites', hwrites, or_assoc]
      exact or_congr_right (by rw [List.exists_mem_cons_iff])

/-- The writes through the base. -/
lemma addWrites_spec {plan' : Plan} (h : l.foldlM (addWrite f addrs) plan = some plan') :
    plan'.roots = plan.roots ∧ ∀ r o, (r, o) ∈ plan'.redirects ↔ (r, o) ∈ plan.redirects ∨
      r ∈ l ∧ o = 0 ∧ ∃ b, (f.insts[r]?).bind writeAddr = some b ∧ addrs b = some 0 := by
  induction l generalizing plan with
  | nil =>
    obtain rfl := Option.some.inj h
    simp
  | cons w l ih =>
    rw [List.foldlM_cons] at h
    obtain ⟨plan₁, hplan₁, h⟩ := Option.bind_eq_some_iff.mp h
    obtain ⟨hroots', hred'⟩ := ih h
    unfold addWrite at hplan₁
    split at hplan₁
    · cases hplan₁
    · rename_i b hb
      obtain rfl := Option.some.inj hplan₁
      have hone : (if addrs b = some 0 then { plan with redirects := plan.redirects ++ [(w, 0)] } else plan).roots =
            plan.roots ∧ ∀ r o, (r, o) ∈ (if addrs b = some 0 then
            { plan with redirects := plan.redirects ++ [(w, 0)] } else plan).redirects ↔
          (r, o) ∈ plan.redirects ∨ r = w ∧ o = 0 ∧ ∃ b, (f.insts[r]?).bind writeAddr = some b ∧
            addrs b = some 0 := by
        split
        · rename_i hzero
          refine ⟨rfl, fun r o => ?_⟩
          rw [List.mem_append, List.mem_singleton, Prod.mk.injEq]
          refine or_congr_right ⟨?_, fun h => ⟨h.1, h.2.1⟩⟩
          rintro ⟨rfl, rfl⟩
          exact ⟨rfl, rfl, b, hb, hzero⟩
        · rename_i hzero
          refine ⟨rfl, fun r o => ⟨.inl, fun h => h.resolve_right ?_⟩⟩
          rintro ⟨rfl, _, b', hb', hzero'⟩
          obtain rfl := Option.some.inj (hb.symm.trans hb')
          exact hzero hzero'
      refine ⟨hroots'.trans hone.1, fun r o => ?_⟩
      rw [hred', hone.2, List.mem_cons, or_assoc]
      refine or_congr_right ⟨?_, ?_⟩
      · rintro (⟨rfl, hat⟩ | ⟨hl, hat⟩)
        · exact ⟨.inl rfl, hat⟩
        · exact ⟨.inr hl, hat⟩
      · rintro ⟨rfl | hl, hat⟩
        · exact .inl ⟨rfl, hat⟩
        · exact .inr ⟨hl, hat⟩

/-! ## Plans -/

/-- A plan accounts for every use of the temporary's addresses. -/
structure Planned (f : FunctionSsa) (slot : ℤ) (start mcpy : ℕ) (plan : Plan) : Prop where
  here : namedHere f slot start mcpy = true
  uses : ∀ a, (addrsOf f slot start mcpy a).isSome → ∀ u ∈ users f a,
    OkUse f (addrsOf f slot start mcpy) mcpy a u
  redirects : ∀ r o, (r, o) ∈ plan.redirects ↔
    (addrsOf f slot start mcpy r = some o ∧ o ≠ 0 ∧ Reached f (addrsOf f slot start mcpy) mcpy r) ∨
    (∃ a, (addrsOf f slot start mcpy a).isSome ∧ r ∈ users f a ∧ WriteUse f mcpy a r) ∧ o = 0 ∧
      ∃ b, (f.insts[r]?).bind writeAddr = some b ∧ addrsOf f slot start mcpy b = some 0
  roots : ∀ x, x ∈ plan.roots ↔ IsBase f x ∧ (addrsOf f slot start mcpy x).isSome ∧
    Reached f (addrsOf f slot start mcpy) mcpy x

/-- A copy that has a plan. -/
lemma planned_of_planOne (hslot : slot < 0) (h : planOne f slot start mcpy = some plan) : Planned f slot start mcpy plan := by
  unfold planOne at h
  split at h
  · cases h
  · rename_i hhere
    have hhere : namedHere f slot start mcpy = true := by simpa using hhere
    obtain ⟨s, hs, h⟩ := Option.bind_eq_some_iff.mp h
    obtain ⟨plan', hplan', h⟩ := Option.bind_eq_some_iff.mp h
    obtain ⟨first, _, h⟩ := Option.bind_eq_some_iff.mp h
    obtain ⟨last, _, h⟩ := Option.bind_eq_some_iff.mp h
    split at h
    · cases h
    · split at h
      · obtain rfl := Option.some.inj h
        obtain ⟨hok, hred, hroots, hwrites⟩ := scanAddrs_spec hs
        obtain ⟨hroots', hred'⟩ := addWrites_spec hplan'
        -- Every address lies in the range that is scanned.
        have hrange : ∀ a, (addrsOf f slot start mcpy a).isSome → a ∈ List.range' start (mcpy + 1 - start) := by
          intro a ha
          obtain ⟨o, ho⟩ := Option.isSome_iff_exists.mp ha
          have := (base_of_addrsOf hhere hslot ho).2
          rw [List.mem_range'_1]
          omega
        refine ⟨hhere, fun a ha => hok a (hrange a ha) ha, fun r o => ?_, fun x => ?_⟩
        · rw [List.mem_dedup, List.mem_insertionSort, hred', hred, hwrites]
          simp only [List.not_mem_nil, false_or]
          refine or_congr ⟨fun h => h.2, fun h => ⟨hrange r (by rw [h.1]; rfl), h⟩⟩ (and_congr_left fun _ => ?_)
          exact ⟨fun ⟨a, _, h⟩ => ⟨a, h⟩, fun ⟨a, h⟩ => ⟨a, hrange a h.1, h⟩⟩
        · dsimp only
          rw [hroots', hroots]
          simp only [List.not_mem_nil, false_or]
          exact ⟨fun h => h.2, fun h => ⟨hrange x h.2.1, h⟩⟩
      · cases h

lemma mem_users {inst : Inst} (hinst : f.insts[u]? = some inst) (ha : a ∈ inst.operands) : u ∈ users f a := by
  obtain ⟨hlt, _⟩ := List.getElem?_eq_some_iff.mp hinst
  refine List.mem_append_left _ (List.mem_flatMap.mpr ⟨u, List.mem_range.mpr hlt, ?_⟩)
  rw [hinst]
  exact List.mem_filterMap.mpr ⟨a, ha, if_pos rfl⟩

/-- A write is a store or a fill. -/
lemma writeAddr_eq_some {inst : Inst} (h : writeAddr inst = some b) :
    (∃ disp value kind vol align pcRel, inst = .store b disp value kind vol align pcRel) ∨
      ∃ size align, inst = .mzero b size align := by
  unfold writeAddr at h
  split at h
  · obtain rfl := Option.some.inj h
    exact .inl ⟨_, _, _, _, _, _, rfl⟩
  · obtain rfl := Option.some.inj h
    exact .inr ⟨_, _, rfl⟩
  · cases h

lemma mem_users_of_writeAddr (hw : (f.insts[w]?).bind writeAddr = some b) : w ∈ users f b := by
  obtain ⟨inst, hinst, hb⟩ := Option.bind_eq_some_iff.mp hw
  refine mem_users hinst ?_
  rcases writeAddr_eq_some hb with ⟨_, _, _, _, _, _, rfl⟩ | ⟨_, _, rfl⟩
  · exact .head _
  · exact .head _

namespace Planned

variable {dst src align : ℕ} {size : ℤ}

/-- Each address that something uses is one of the plan's. -/
lemma addrsOf_of_base (h : Planned f slot start mcpy plan) (hslot : slot < 0)
    (hmcpy : f.insts[mcpy]? = some (.mcpy dst src size align)) (ha : base f a = some (slot, off))
    (hused : users f a ≠ []) : addrsOf f slot start mcpy a = some off := by
  have hsome : ∀ n a off, baseOf f n a = some (slot, off) → users f a ≠ [] →
      (addrsOf f slot start mcpy a).isSome := by
    intro n
    induction n with
    | zero => exact fun _ _ h => nomatch h
    | succ n ih =>
      intro a off ha hused
      rcases baseOf_succ ha with ⟨hinst, _, _⟩ | ⟨lhs, k, o, hinst, hlhs, _⟩
      · exact addrsOf_isSome hinst
      · have huse : a ∈ users f lhs := mem_users hinst (.head _)
        rcases h.uses lhs (ih lhs o hlhs (List.ne_nil_of_mem huse)) a huse with rfl | hreach | ⟨_, _, _, hnone⟩
        · cases Option.some.inj (hmcpy.symm.trans hinst)
        · obtain ⟨_, inst, hinst', hspan | haddr⟩ := hreach
          · obtain rfl := Option.some.inj (hinst.symm.trans hinst')
            cases hspan
          · exact haddr
        · exact absurd hnone hused
  obtain ⟨off', hoff'⟩ := Option.isSome_iff_exists.mp (hsome _ a off ha hused)
  have hbase := (base_of_addrsOf h.here hslot hoff').1
  rw [ha] at hbase
  rw [hoff', (Prod.mk.inj (Option.some.inj hbase)).2]

/-- Each write into the temporary is one of the plan's. -/
lemma write (h : Planned f slot start mcpy plan) (hslot : slot < 0)
    (hmcpy : f.insts[mcpy]? = some (.mcpy dst src size align)) (hw : (f.insts[w]?).bind writeAddr = some b)
    (hb : base f b = some (slot, off)) :
    addrsOf f slot start mcpy b = some off ∧ w ∈ users f b ∧ WriteUse f mcpy b w := by
  have huse := mem_users_of_writeAddr hw
  have haddr := h.addrsOf_of_base hslot hmcpy hb (List.ne_nil_of_mem huse)
  refine ⟨haddr, huse, ?_⟩
  obtain ⟨inst, hinst, hwrite⟩ := Option.bind_eq_some_iff.mp hw
  rcases h.uses b (by rw [haddr]; rfl) w huse with rfl | ⟨hne, inst', hinst', hspan | haddrw⟩ | ⟨inst', hinst', hpure, _⟩
  · obtain rfl := Option.some.inj (hmcpy.symm.trans hinst)
    cases hwrite
  · exact ⟨hne, inst', hinst', hspan⟩
  · -- A write is no address.
    obtain ⟨o, ho⟩ := Option.isSome_iff_exists.mp haddrw
    rcases baseOf_succ (base_of_addrsOf h.here hslot ho).1 with ⟨hlocal, _⟩ | ⟨lhs, k, _, hadd, _⟩
    · obtain rfl := Option.some.inj (hlocal.symm.trans hinst)
      cases hwrite
    · obtain rfl := Option.some.inj (hadd.symm.trans hinst)
      cases hwrite
  · obtain rfl := Option.some.inj (hinst.symm.trans hinst')
    rcases writeAddr_eq_some hwrite with ⟨_, _, _, _, _, _, rfl⟩ | ⟨_, _, rfl⟩
    · cases hpure
    · cases hpure

lemma redirect_base (h : Planned f slot start mcpy plan) (hslot : slot < 0)
    (hmcpy : f.insts[mcpy]? = some (.mcpy dst src size align)) (hw : (f.insts[w]?).bind writeAddr = some b)
    (hb : base f b = some (slot, 0)) : (w, 0) ∈ plan.redirects := by
  obtain ⟨haddr, huse, hwrite⟩ := h.write hslot hmcpy hw hb
  exact (h.redirects w 0).mpr (.inr ⟨⟨b, by rw [haddr]; rfl, huse, hwrite⟩, rfl, b, hw, haddr⟩)

lemma reached (h : Planned f slot start mcpy plan) (hslot : slot < 0)
    (hmcpy : f.insts[mcpy]? = some (.mcpy dst src size align)) (hw : (f.insts[w]?).bind writeAddr = some b)
    (hb : base f b = some (slot, off)) : Reached f (addrsOf f slot start mcpy) mcpy b := by
  obtain ⟨_, huse, hne, inst, hinst, hspan⟩ := h.write hslot hmcpy hw hb
  exact ⟨w, huse, hne, inst, hinst, .inl hspan⟩

lemma redirect_interior (h : Planned f slot start mcpy plan) (hslot : slot < 0)
    (hmcpy : f.insts[mcpy]? = some (.mcpy dst src size align)) (hw : (f.insts[w]?).bind writeAddr = some b)
    (hb : base f b = some (slot, off)) (hoff : off ≠ 0) : (b, off) ∈ plan.redirects :=
  (h.redirects b off).mpr (.inl ⟨(h.write hslot hmcpy hw hb).1, hoff, h.reached hslot hmcpy hw hb⟩)

/-- What is redirected: an interior address, or a write through the base. -/
lemma of_redirect {r : ℕ} {o : ℤ} (h : Planned f slot start mcpy plan) (hslot : slot < 0)
    (hr : (r, o) ∈ plan.redirects) :
    (∃ lhs k, f.insts[r]? = some (.binopI .add lhs k)) ∧ base f r = some (slot, o) ∨
      o = 0 ∧ ∃ b, (f.insts[r]?).bind writeAddr = some b ∧ base f b = some (slot, 0) := by
  rcases (h.redirects r o).mp hr with ⟨haddr, hne, _⟩ | ⟨_, rfl, b, hw, haddr⟩
  · have hbase := (base_of_addrsOf h.here hslot haddr).1
    rcases baseOf_succ hbase with ⟨_, _, rfl⟩ | ⟨lhs, k, _, hadd, _⟩
    · exact absurd rfl hne
    · exact .inl ⟨⟨lhs, k, hadd⟩, hbase⟩
  · exact .inr ⟨rfl, b, hw, (base_of_addrsOf h.here hslot haddr).1⟩

lemma of_root {x : ℕ} (h : Planned f slot start mcpy plan) (hslot : slot < 0) (hx : x ∈ plan.roots) :
    f.insts[x]? = some (.localAddr slot) := by
  obtain ⟨⟨slot', hinst⟩, haddr, _⟩ := (h.roots x).mp hx
  obtain ⟨o, ho⟩ := Option.isSome_iff_exists.mp haddr
  rcases baseOf_succ (base_of_addrsOf h.here hslot ho).1 with ⟨hlocal, _⟩ | ⟨_, _, _, hadd, _⟩
  · exact hlocal
  · cases Option.some.inj (hadd.symm.trans hinst)

lemma root_of_use {x : ℕ} (h : Planned f slot start mcpy plan) (hx : f.insts[x]? = some (.localAddr slot))
    (hreach : Reached f (addrsOf f slot start mcpy) mcpy x) : x ∈ plan.roots :=
  (h.roots x).mpr ⟨⟨slot, hx⟩, addrsOf_isSome hx, hreach⟩

end Planned

end Badc.CopyElide
