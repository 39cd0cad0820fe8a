import Badc.Passes.CopyElidePlan

/-!
# What the pass decides

The temporaries of different elisions differ, and every redirection belongs to the plan of one (`Decided`).
-/

namespace Badc.CopyElide

variable {fr : FrameInfo} {f : FunctionSsa} {r r' : Run} {e : Elision} {slot size : ℤ} {start i dst : ℕ} {plan : Plan}

/-- What holds of all that is decided. -/
structure Decided (f : FunctionSsa) (r : Run) : Prop where
  unique : ∀ e ∈ r.elisions, ∀ e' ∈ r.elisions, e.slot = e'.slot → e = e'
  taken : ∀ e ∈ r.elisions, e.slot ∈ r.taken
  copy : ∀ e ∈ r.elisions, ∃ src size align, f.insts[e.mcpy]? = some (.mcpy e.dst src size align) ∧
    base f src = some (e.slot, 0)
  apart : ∀ e ∈ r.elisions, ∀ off, base f e.dst ≠ some (e.slot, off)
  planned : ∀ e ∈ r.elisions, Planned f e.slot e.start e.mcpy e.plan
  address : ∀ e ∈ r.elisions, e.direct = false →
    ∃ off, f.insts[e.dst]? = some (.localAddr off) ∨ f.insts[e.dst]? = some (.immData off)
  redirects : ∀ a d off, (a, d, off) ∈ r.redirects ↔
    ∃ e ∈ r.elisions, e.direct = true ∧ e.dst = d ∧ (a, off) ∈ e.plan.redirects
  namedAt : ∀ a d, (a, d) ∈ r.namedAt ↔ ∃ e ∈ r.elisions, e.direct = false ∧ e.dst = d ∧ a ∈ e.plan.roots
  elided : ∀ p ∈ r.elided, ∃ src size align, f.insts[p.1]? = some (.mcpy p.2 src size align)
  elides : ∀ e ∈ r.elisions, (e.mcpy, e.dst) ∈ r.elided
  /-- A renamed base is of a temporary that has no elision with a plan; the copies that use it copy from there. -/
  renamed : ∀ p ∈ r.renamed, ∃ slot, f.insts[p.1]? = some (.localAddr slot) ∧ slot ∈ r.taken ∧
    (∀ e ∈ r.elisions, e.slot ≠ slot) ∧
    ∀ u ∈ users f p.1, ∀ d s size align, f.insts[u]? = some (.mcpy d s size align) → base f s = some (slot, 0)

lemma Decided.init : Decided f {} := by
  constructor <;> simp

lemma slot_neg_of_base {v : ℕ} {off : ℤ} (h : base f v = some (slot, off)) : slot < 0 := slot_neg_of_baseOf h

lemma Decided.slot_neg (h : Decided f r) (he : e ∈ r.elisions) : e.slot < 0 := by
  obtain ⟨_, _, _, _, hsrc⟩ := h.copy e he
  exact slot_neg_of_base hsrc

/-- The run with one more elision. -/
def Run.push (r : Run) (e : Elision) : Run :=
  { r with
    redirects := r.redirects ++ if e.direct then e.plan.redirects.map fun p => (p.1, e.dst, p.2) else []
    namedAt := r.namedAt ++ if e.direct then [] else e.plan.roots.map fun a => (a, e.dst)
    elided := r.elided ++ [(e.mcpy, e.dst)]
    taken := e.slot :: r.taken
    elisions := r.elisions ++ [e] }

/-- An elision of a temporary that is not taken. -/
lemma Decided.push {src align : ℕ} (h : Decided f r) (hnew : e.slot ∉ r.taken)
    (hcopy : f.insts[e.mcpy]? = some (.mcpy e.dst src size align)) (hsrc : base f src = some (e.slot, 0))
    (hapart : ∀ off, base f e.dst ≠ some (e.slot, off)) (hplan : Planned f e.slot e.start e.mcpy e.plan)
    (haddress : e.direct = false →
      ∃ off, f.insts[e.dst]? = some (.localAddr off) ∨ f.insts[e.dst]? = some (.immData off)) :
    Decided f (r.push e) := by
  have hmem : ∀ e', e' ∈ (r.push e).elisions ↔ e' ∈ r.elisions ∨ e' = e := by
    intro e'
    rw [Run.push, List.mem_append, List.mem_singleton]
  have hold : ∀ e' ∈ r.elisions, e'.slot ≠ e.slot := fun e' he' heq => hnew (heq ▸ h.taken e' he')
  refine {
    unique := ?unique
    taken := ?taken
    copy := ?copy
    apart := ?apart
    planned := ?planned
    address := ?address
    redirects := ?redirects
    namedAt := ?namedAt
    elided := ?elided
    elides := ?elides
    renamed := ?renamed }
  case unique =>
    intro e₁ h₁ e₂ h₂ heq
    rcases (hmem e₁).mp h₁ with hin₁ | heq₁ <;> rcases (hmem e₂).mp h₂ with hin₂ | heq₂
    · exact h.unique e₁ hin₁ e₂ hin₂ heq
    · exact absurd (heq₂ ▸ heq) (hold e₁ hin₁)
    · exact absurd (heq₁ ▸ heq.symm) (hold e₂ hin₂)
    · exact heq₁.trans heq₂.symm
  case taken =>
    intro e' he'
    rcases (hmem e').mp he' with he' | rfl
    · exact List.mem_cons_of_mem _ (h.taken e' he')
    · exact .head _
  case copy =>
    intro e' he'
    rcases (hmem e').mp he' with he' | rfl
    · exact h.copy e' he'
    · exact ⟨src, size, align, hcopy, hsrc⟩
  case apart =>
    intro e' he'
    rcases (hmem e').mp he' with he' | rfl
    · exact h.apart e' he'
    · exact hapart
  case planned =>
    intro e' he'
    rcases (hmem e').mp he' with he' | rfl
    · exact h.planned e' he'
    · exact hplan
  case address =>
    intro e' he'
    rcases (hmem e').mp he' with he' | rfl
    · exact h.address e' he'
    · exact haddress
  case redirects =>
    intro a d off
    have hone : (a, d, off) ∈ (if e.direct then e.plan.redirects.map fun p => (p.1, e.dst, p.2) else []) ↔
        e.direct = true ∧ e.dst = d ∧ (a, off) ∈ e.plan.redirects := by
      split
      · rename_i hdirect
        constructor
        · intro hin
          obtain ⟨p, hp, heq⟩ := List.mem_map.mp hin
          obtain ⟨rfl, rfl, rfl⟩ : p.1 = a ∧ e.dst = d ∧ p.2 = off := by simpa using heq
          exact ⟨hdirect, rfl, hp⟩
        · rintro ⟨_, rfl, hp⟩
          exact List.mem_map.mpr ⟨(a, off), hp, rfl⟩
      · rename_i hdirect
        exact ⟨fun hin => (nomatch hin), fun hin => absurd hin.1 hdirect⟩
    rw [show (r.push e).redirects = r.redirects ++ _ from rfl, List.mem_append, h.redirects, hone]
    constructor
    · rintro (⟨e', he', hrest⟩ | hrest)
      · exact ⟨e', (hmem e').mpr (.inl he'), hrest⟩
      · exact ⟨e, (hmem e).mpr (.inr rfl), hrest⟩
    · rintro ⟨e', he', hrest⟩
      rcases (hmem e').mp he' with he' | rfl
      · exact .inl ⟨e', he', hrest⟩
      · exact .inr hrest
  case namedAt =>
    intro a d
    have hone : (a, d) ∈ (if e.direct then [] else e.plan.roots.map fun a => (a, e.dst)) ↔
        e.direct = false ∧ e.dst = d ∧ a ∈ e.plan.roots := by
      split
      · rename_i hdirect
        exact ⟨fun hin => (nomatch hin), fun hin => absurd (hin.1.symm.trans hdirect) (nomatch ·)⟩
      · rename_i hdirect
        constructor
        · intro hin
          obtain ⟨x, hx, heq⟩ := List.mem_map.mp hin
          obtain ⟨rfl, rfl⟩ := Prod.mk.inj heq
          exact ⟨Bool.eq_false_of_not_eq_true hdirect, rfl, hx⟩
        · rintro ⟨_, rfl, hx⟩
          exact List.mem_map.mpr ⟨a, hx, rfl⟩
    rw [show (r.push e).namedAt = r.namedAt ++ _ from rfl, List.mem_append, h.namedAt, hone]
    constructor
    · rintro (⟨e', he', hrest⟩ | hrest)
      · exact ⟨e', (hmem e').mpr (.inl he'), hrest⟩
      · exact ⟨e, (hmem e).mpr (.inr rfl), hrest⟩
    · rintro ⟨e', he', hrest⟩
      rcases (hmem e').mp he' with he' | rfl
      · exact .inl ⟨e', he', hrest⟩
      · exact .inr hrest
  case elided =>
    intro p hp
    rcases List.mem_append.mp hp with hp | hp
    · exact h.elided p hp
    · obtain rfl := List.mem_singleton.mp hp
      exact ⟨src, size, align, hcopy⟩
  case elides =>
    intro e' he'
    rcases (hmem e').mp he' with he' | rfl
    · exact List.mem_append_left _ (h.elides e' he')
    · exact List.mem_append_right _ (.head _)
  case renamed =>
    intro p hp
    obtain ⟨slot', hinst, htaken, hne, husers⟩ := h.renamed p hp
    refine ⟨slot', hinst, List.mem_cons_of_mem _ htaken, fun e' he' => ?_, husers⟩
    rcases (hmem e').mp he' with he' | rfl
    · exact hne e' he'
    · exact fun heq => hnew (heq ▸ htaken)

/-- An elision by a plan. -/
lemma Decided.elide {src align : ℕ} (h : Decided f r) (hnew : slot ∉ r.taken)
    (hcopy : f.insts[i]? = some (.mcpy dst src size align)) (hsrc : base f src = some (slot, 0))
    (hapart : ∀ off, base f dst ≠ some (slot, off)) (hplan : planOne f slot start i = some plan) :
    Decided f (elide f r slot start i dst size plan) := by
  have hplanned := planned_of_planOne (slot_neg_of_base hsrc) hplan
  unfold CopyElide.elide
  split
  · exact h
  · split
    · have hpush := h.push (e := ⟨i, slot, start, dst, plan, true⟩) hnew hcopy hsrc hapart hplanned (nomatch ·)
      rw [Run.push] at hpush
      simpa using hpush
    · split
      · rename_i off hdst
        have hpush := h.push (e := ⟨i, slot, start, dst, plan, false⟩) hnew hcopy hsrc hapart hplanned
          fun _ => ⟨off, .inl hdst⟩
        rw [Run.push] at hpush
        simpa using hpush
      · rename_i off hdst
        have hpush := h.push (e := ⟨i, slot, start, dst, plan, false⟩) hnew hcopy hsrc hapart hplanned
          fun _ => ⟨off, .inr hdst⟩
        rw [Run.push] at hpush
        simpa using hpush
      · exact h

/-- The users of a renamed base are its copy and instructions that copy nothing. -/
lemma renameUsers_spec {call a u : ℕ} {out : Option ℕ} {l : List ℕ} {s s' : List ℕ × Bool}
    (h : l.foldlM (renameUser f i call out a) s = some s') (hu : u ∈ l) :
    u = i ∨ ∀ d src size align, f.insts[u]? ≠ some (.mcpy d src size align) := by
  induction l generalizing s with
  | nil => cases hu
  | cons v l ih =>
    rw [List.foldlM_cons] at h
    obtain ⟨s₁, hs₁, h⟩ := Option.bind_eq_some_iff.mp h
    rcases List.mem_cons.mp hu with rfl | hu
    · by_cases hui : u = i
      · exact .inl hui
      · refine .inr fun d src size align hinst => ?_
        rw [renameUser, if_neg hui, hinst] at hs₁
        cases hs₁
    · exact ih h hu

/-- What is renamed: bases. -/
lemma renameAddrs_spec {call a : ℕ} {out : Option ℕ} {l : List ℕ} {s s' : List ℕ × List ℕ}
    (h : l.foldlM (renameAddr f i call out) s = some s') (ha : a ∈ s'.1) :
    a ∈ s.1 ∨ a ∈ l ∧ (∃ off, f.insts[a]? = some (.localAddr off)) ∧
      ∀ u ∈ users f a, u = i ∨ ∀ d src size align, f.insts[u]? ≠ some (.mcpy d src size align) := by
  induction l generalizing s with
  | nil =>
    obtain rfl := Option.some.inj h
    exact .inl ha
  | cons b l ih =>
    rw [List.foldlM_cons] at h
    obtain ⟨s₁, hs₁, h⟩ := Option.bind_eq_some_iff.mp h
    rcases ih h with hin | ⟨hl, hrest⟩
    · unfold renameAddr at hs₁
      split at hs₁
      · rename_i off hinst
        obtain ⟨⟨reads, renamed⟩, husers, hs₁⟩ := Option.bind_eq_some_iff.mp hs₁
        obtain rfl := Option.some.inj hs₁
        dsimp only at hin
        split at hin
        · rcases List.mem_append.mp hin with hin | hin
          · exact .inl hin
          · obtain rfl := List.mem_singleton.mp hin
            exact .inr ⟨List.mem_cons_self, ⟨off, hinst⟩, fun u hu => renameUsers_spec husers hu⟩
        · exact .inl hin
      · obtain rfl := Option.some.inj hs₁
        exact .inl hin
    · exact .inr ⟨List.mem_cons_of_mem _ hl, hrest⟩

/-- What a call that fills the temporary renames. -/
lemma callWriter_renames {call a : ℕ} {renames reads : List ℕ}
    (h : callWriter fr f slot start i size = some (call, renames, reads)) (ha : a ∈ renames) :
    f.insts[a]? = some (.localAddr slot) ∧
      ∀ u ∈ users f a, u = i ∨ ∀ d src size align, f.insts[u]? ≠ some (.mcpy d src size align) := by
  unfold callWriter at h
  split at h
  · cases h
  · obtain ⟨o, _, h⟩ := Option.bind_eq_some_iff.mp h
    obtain ⟨⟨c, out⟩, _, h⟩ := Option.bind_eq_some_iff.mp h
    obtain ⟨⟨rs, rd⟩, hfold, h⟩ := Option.bind_eq_some_iff.mp h
    have hrs : rs = renames := by
      dsimp only at h
      split at h
      · cases h
      · split at h
        · cases h
        · split at h
          · exact (Prod.mk.inj (Prod.mk.inj (Option.some.inj h)).2).1
          · cases h
    obtain rfl := hrs
    rcases renameAddrs_spec hfold ha with hin | ⟨hnamed, ⟨off, hinst⟩, husers⟩
    · cases hin
    · have hslot := of_decide_eq_true (List.mem_filter.mp hnamed).2
      rw [hinst] at hslot
      rw [hinst, Option.some.inj hslot]
      exact ⟨rfl, husers⟩

/-- A call pointed at the destination. -/
lemma Decided.retarget {src align : ℕ} (h : Decided f r) (hnew : slot ∉ r.taken)
    (hcopy : f.insts[i]? = some (.mcpy dst src size align)) (hsrc : base f src = some (slot, 0)) :
    Decided f (retarget fr f r slot start i dst size) := by
  unfold CopyElide.retarget
  split
  · rename_i call renames reads d hcall _
    split
    · refine { h with
        taken := fun e he => List.mem_cons_of_mem _ (h.taken e he)
        elided := fun p hp => ?_
        elides := fun e he => List.mem_append_left _ (h.elides e he)
        renamed := fun p hp => ?_ }
      · rcases List.mem_append.mp hp with hp | hp
        · exact h.elided p hp
        · obtain rfl := List.mem_singleton.mp hp
          exact ⟨src, size, align, hcopy⟩
      · rcases List.mem_append.mp hp with hp | hp
        · obtain ⟨slot', hinst, htaken, hrest⟩ := h.renamed p hp
          exact ⟨slot', hinst, List.mem_cons_of_mem _ htaken, hrest⟩
        · obtain ⟨a, ha, rfl⟩ := List.mem_map.mp hp
          obtain ⟨hinst, husers⟩ := callWriter_renames hcall ha
          refine ⟨slot, hinst, (.head _), fun e he heq => hnew (heq ▸ h.taken e he),
            fun u hu d' s size' align' hmcpy => ?_⟩
          rcases husers u hu with rfl | hnot
          · obtain ⟨-, rfl, -⟩ := Inst.mcpy.inj (Option.some.inj (hcopy.symm.trans hmcpy))
            exact hsrc
          · exact absurd hmcpy (hnot d' s size' align')
    · exact h
  · exact h

/-- Deciding on one instruction. -/
lemma Decided.decideAt (h : Decided f r) : Decided f (decideAt fr f start r i) := by
  unfold CopyElide.decideAt
  split
  · rename_i dst src size align hcopy
    split
    · rename_i slot hsrc
      split
      · exact h
      · rename_i hcond
        obtain ⟨hnew, hany⟩ := not_or.mp hcond
        split
        · exact h.retarget hnew hcopy hsrc
        · rename_i plan hplan
          refine h.elide hnew hcopy hsrc (fun off hdst => hany ?_) hplan
          rw [hdst]
          exact decide_eq_true rfl
    · exact h
  · exact h

/-- **Everything that is decided belongs to the plan of one temporary.** -/
theorem decided_decideAll (fr : FrameInfo) (f : FunctionSsa) : Decided f (decideAll fr f) := by
  have hblock : ∀ (start : ℕ) (l : List ℕ) (r : Run), Decided f r →
      Decided f (l.foldl (CopyElide.decideAt fr f start) r) := by
    intro start l
    induction l with
    | nil => exact fun _ h => h
    | cons i l ih => exact fun r h => ih _ h.decideAt
  have hall : ∀ (l : List Block) (r : Run), Decided f r →
      Decided f (l.foldl (fun r blk => blk.instRange.toList.foldl (CopyElide.decideAt fr f blk.instRange.start) r) r) := by
    intro l
    induction l with
    | nil => exact fun _ h => h
    | cons blk l ih => exact fun r h => ih _ (hblock _ _ r h)
  exact hall _ _ .init

end Badc.CopyElide
