import Badc.Lib.Listing
import Badc.Passes.CopyElideDecide

/-!
# The tape after the elisions

What becomes of a write of an elided temporary, of an address of it, and of the destination (`apply_write`,
`apply_interior`, `apply_root`, `apply_dst`), and which symbol the destination's address and its copies name
(`mem_apply_immData`).
-/

namespace Badc.CopyElide

variable {f : FunctionSsa} {r : Run} {e : Elision} {inst : Inst} {i a b w d : ℕ} {off : ℤ}

/-! ## Naming -/

lemma nameAt_insts_of_ne {p : ℕ × ℕ} (h : p.1 ≠ i) : (nameAt f p).insts[i]? = f.insts[i]? :=
  List.getElem?_set_ne h

lemma foldl_nameAt_of_not {l : List (ℕ × ℕ)} (h : ∀ p ∈ l, p.1 ≠ i) :
    (l.foldl nameAt f).insts[i]? = f.insts[i]? := by
  induction l generalizing f with
  | nil => rfl
  | cons p l ih =>
    rw [List.foldl_cons, ih fun q hq => h q (.tail _ hq),
      nameAt_insts_of_ne (h p (.head _))]

/-- What is named takes the instruction of its one destination, where no destination is named. -/
lemma foldl_nameAt_of_mem {l : List (ℕ × ℕ)} (hsep : ∀ p ∈ l, p.1 ≠ d) (hmem : (a, d) ∈ l)
    (hone : ∀ p ∈ l, p.1 = a → p.2 = d) (ha : a < f.insts.length) (hd : f.insts[d]? = some inst) :
    (l.foldl nameAt f).insts[a]? = some inst := by
  induction l generalizing f with
  | nil => cases hmem
  | cons p l ih =>
    rw [List.foldl_cons]
    have hsep' : ∀ q ∈ l, q.1 ≠ d := fun q hq => hsep q (.tail _ hq)
    by_cases hl : (a, d) ∈ l
    · refine ih hsep' hl (fun q hq => hone q (.tail _ hq)) ?_ ?_
      · rwa [nameAt, List.length_set]
      · rw [nameAt_insts_of_ne (hsep p (.head _)), hd]
    · obtain rfl : (a, d) = p := (List.mem_cons.mp hmem).resolve_right hl
      rw [foldl_nameAt_of_not, nameAt, List.getElem?_set_self ha, hd]
      · rfl
      · rintro ⟨a', d'⟩ hq rfl
        obtain rfl := hone (a', d') (.tail _ hq) rfl
        exact hl hq

/-- The symbols after one naming. -/
lemma mem_nameAt_immData {p : ℕ × ℕ} {k x : ℕ}
    (hfun : ∀ x y, (p.2, x) ∈ f.externImmDataRefs → (p.2, y) ∈ f.externImmDataRefs → x = y) :
    (k, x) ∈ (nameAt f p).externImmDataRefs ↔
      (k, x) ∈ f.externImmDataRefs ∨ k = p.1 ∧ (p.2, x) ∈ f.externImmDataRefs := by
  unfold nameAt
  dsimp only
  split
  · rename_i q hq
    obtain ⟨q₁, sym⟩ := q
    obtain rfl : q₁ = p.2 := by simpa using List.find?_some hq
    have hin := List.mem_of_find?_eq_some hq
    rw [List.mem_insertionSort, List.mem_append, List.mem_singleton, Prod.mk.injEq]
    refine or_congr_right (and_congr_right fun _ => ?_)
    exact ⟨fun heq => heq ▸ hin, fun hx => hfun x sym hx hin⟩
  · rename_i hnone
    refine ⟨.inl, fun h => h.resolve_right fun hk => ?_⟩
    exact of_decide_eq_false (Bool.eq_false_of_not_eq_true (List.find?_eq_none.mp hnone _ hk.2)) rfl

/-- The symbols after all namings: those there were, and a copy for each base that takes an address which has one. -/
lemma mem_foldl_nameAt_immData {l : List (ℕ × ℕ)} {k x : ℕ} (hsep : ∀ p ∈ l, ∀ q ∈ l, p.1 ≠ q.2)
    (hfun : ∀ k x y, (k, x) ∈ f.externImmDataRefs → (k, y) ∈ f.externImmDataRefs → x = y) :
    (k, x) ∈ (l.foldl nameAt f).externImmDataRefs ↔
      (k, x) ∈ f.externImmDataRefs ∨ ∃ d, (k, d) ∈ l ∧ (d, x) ∈ f.externImmDataRefs := by
  -- At a destination the symbols stay as they are.
  have hgen : ∀ (l : List (ℕ × ℕ)) (g : FunctionSsa), (∀ p ∈ l, ∀ q ∈ l, p.1 ≠ q.2) →
      (∀ q ∈ l, ∀ x, (q.2, x) ∈ g.externImmDataRefs ↔ (q.2, x) ∈ f.externImmDataRefs) →
      ((k, x) ∈ (l.foldl nameAt g).externImmDataRefs ↔
        (k, x) ∈ g.externImmDataRefs ∨ ∃ d, (k, d) ∈ l ∧ (d, x) ∈ f.externImmDataRefs) := by
    intro l
    induction l with
    | nil => simp
    | cons p l ih =>
      intro g hsep hsame
      have hone : ∀ k x, (k, x) ∈ (nameAt g p).externImmDataRefs ↔
          (k, x) ∈ g.externImmDataRefs ∨ k = p.1 ∧ (p.2, x) ∈ f.externImmDataRefs := by
        intro k x
        have hp := hsame p (.head _)
        rw [mem_nameAt_immData, hp]
        intro x y hx hy
        exact hfun p.2 x y ((hp x).mp hx) ((hp y).mp hy)
      rw [List.foldl_cons, ih, hone, or_assoc]
      · refine or_congr_right ?_
        constructor
        · rintro (⟨rfl, hx⟩ | ⟨d, hd, hx⟩)
          · exact ⟨p.2, (.head _), hx⟩
          · exact ⟨d, List.mem_cons_of_mem _ hd, hx⟩
        · rintro ⟨d, hd, hx⟩
          rcases List.mem_cons.mp hd with rfl | hd
          · exact .inl ⟨rfl, hx⟩
          · exact .inr ⟨d, hd, hx⟩
      · exact fun p hp q hq => hsep p (.tail _ hp) q (.tail _ hq)
      · intro q hq x
        rw [hone, hsame q (.tail _ hq)]
        exact or_iff_left fun h => hsep p (.head _) q (.tail _ hq) h.1.symm
  exact hgen l f hsep fun _ _ _ => Iff.rfl

/-! ## The steps of `apply` -/

/-- The function with its calls, bases, addresses and copies changed. -/
def edited (r : Run) (f : FunctionSsa) : FunctionSsa :=
  let insts := r.retargets.foldl (fun insts p => insts.modify p.1 (setRetSlot p.2)) f.insts
  let insts := r.renamed.foldl (fun insts p => insts.set p.1 (.localAddr p.2)) insts
  let f := r.namedAt.foldl nameAt { f with insts }
  let insts := r.redirects.foldl (fun insts p => insts.modify p.1 (redirect p.2.1 p.2.2)) f.insts
  let insts := r.elided.foldl (fun insts p => insts.set p.1 (.copy p.2 false)) insts
  { f with insts }

lemma apply_eq (h : r.elided ≠ []) :
    apply r f = { edited r f with
      insts := (edited r f).insts.mapIdx fun i inst => dropName (edited r f) r.taken i inst } :=
  if_neg h

lemma Decided.elided_ne_nil (h : Decided f r) (he : e ∈ r.elisions) : r.elided ≠ [] :=
  List.ne_nil_of_mem (h.elides e he)

lemma apply_of_edited (h : r.elided ≠ []) (hinst : (edited r f).insts[i]? = some inst)
    (hname : ∀ off, inst ≠ .localAddr off) : (apply r f).insts[i]? = some inst := by
  rw [apply_eq h, List.getElem?_mapIdx, hinst]
  refine congrArg some ?_
  unfold dropName
  dsimp only
  split
  · exact absurd rfl (hname _)
  · rfl

/-- An instruction that something reads keeps what the edits make of it. -/
lemma apply_of_live (h : r.elided ≠ []) (hinst : (edited r f).insts[i]? = some inst)
    (hlive : isLive (edited r f) i = true) : (apply r f).insts[i]? = some inst := by
  rw [apply_eq h, List.getElem?_mapIdx, hinst]
  refine congrArg some ?_
  unfold dropName
  dsimp only
  split
  · rw [hlive]
    exact if_neg fun h => (nomatch h.2)
  · rfl

lemma isLive_of_operand {j : ℕ} (hinst : f.insts[j]? = some inst) (hi : i ∈ inst.operands) : isLive f i = true := by
  rw [isLive, Bool.or_eq_true, List.any_eq_true]
  exact .inl ⟨inst, List.mem_of_getElem? hinst, decide_eq_true hi⟩

lemma setRetSlot_eq {d : ℤ} (h : callSite inst = none) : setRetSlot d inst = inst := by
  unfold setRetSlot
  split
  · cases h
  · cases h
  · cases h
  · rfl

lemma before_naming (hinst : f.insts[i]? = some inst) (hcall : callSite inst = none)
    (hrenamed : ∀ p ∈ r.renamed, p.1 ≠ i) :
    (r.renamed.foldl (fun insts p => insts.set p.1 (.localAddr p.2))
      (r.retargets.foldl (fun insts p => insts.modify p.1 (setRetSlot p.2)) f.insts))[i]? = some inst := by
  have hcalls : (r.retargets.foldl (fun insts p => insts.modify p.1 (setRetSlot p.2)) f.insts)[i]? = some inst :=
    getElem?_foldl_modify_of_fixed hinst fun _ _ _ => setRetSlot_eq hcall
  rcases @getElem?_foldl_set_or _ _ (fun d => Inst.localAddr d) r.renamed _ _ _ hcalls with heq | ⟨y, hy, _⟩
  · exact heq
  · exact absurd rfl (hrenamed (i, y) hy)

lemma Decided.not_named (h : Decided f r) (hinst : f.insts[i]? = some inst) (hname : ∀ off, inst ≠ .localAddr off) :
    (∀ p ∈ r.renamed, p.1 ≠ i) ∧ ∀ p ∈ r.namedAt, p.1 ≠ i := by
  constructor
  · rintro p hp rfl
    obtain ⟨slot, hlocal, _⟩ := h.renamed p hp
    exact hname slot (Option.some.inj (hinst.symm.trans hlocal))
  · rintro ⟨a, d⟩ hp rfl
    obtain ⟨e, he, _, _, hroot⟩ := (h.namedAt a d).mp hp
    exact hname e.slot (Option.some.inj (hinst.symm.trans ((h.planned e he).of_root (h.slot_neg he) hroot)))

lemma before_redirects (hinst : f.insts[i]? = some inst) (hcall : callSite inst = none)
    (hkeys : (∀ p ∈ r.renamed, p.1 ≠ i) ∧ ∀ p ∈ r.namedAt, p.1 ≠ i) :
    (r.namedAt.foldl nameAt { f with
      insts := r.renamed.foldl (fun insts p => insts.set p.1 (.localAddr p.2))
        (r.retargets.foldl (fun insts p => insts.modify p.1 (setRetSlot p.2)) f.insts) }).insts[i]? = some inst := by
  rw [foldl_nameAt_of_not hkeys.2]
  exact before_naming hinst hcall hkeys.1

lemma Decided.after_redirects {insts : List Inst} (h : Decided f r) (hinst : f.insts[i]? = some inst)
    (hcopy : ∀ d s size align, inst ≠ .mcpy d s size align) {inst' : Inst} (hinst' : insts[i]? = some inst') :
    (r.elided.foldl (fun insts p => insts.set p.1 (.copy p.2 false)) insts)[i]? = some inst' := by
  rcases @getElem?_foldl_set_or _ _ (fun d => Inst.copy d false) r.elided _ _ _ hinst' with heq | ⟨y, hy, _⟩
  · exact heq
  · obtain ⟨src, size, align, hmcpy⟩ := h.elided (i, y) hy
    exact absurd (Option.some.inj (hinst.symm.trans hmcpy)) (hcopy _ _ _ _)

/-! ## Writes and addresses -/

lemma Decided.of_redirect (h : Decided f r) (hred : (i, d, off) ∈ r.redirects) :
    ∃ e ∈ r.elisions, e.direct = true ∧ e.dst = d ∧
      ((∃ lhs k, f.insts[i]? = some (.binopI .add lhs k)) ∧ base f i = some (e.slot, off) ∨
        off = 0 ∧ ∃ b, (f.insts[i]?).bind writeAddr = some b ∧ base f b = some (e.slot, 0)) := by
  obtain ⟨e, he, hdirect, hdst, hp⟩ := (h.redirects i d off).mp hred
  exact ⟨e, he, hdirect, hdst, (h.planned e he).of_redirect (h.slot_neg he) hp⟩

/-- The redirections at a write through an address of a temporary. -/
lemma Decided.redirect_write (h : Decided f r) (he : e ∈ r.elisions) (hw : (f.insts[w]?).bind writeAddr = some b)
    (hb : base f b = some (e.slot, off)) {o : ℤ} (hred : (w, d, o) ∈ r.redirects) :
    e.direct = true ∧ d = e.dst ∧ o = 0 ∧ off = 0 := by
  obtain ⟨e', he', hdirect, rfl, ⟨⟨lhs, k, hadd⟩, _⟩ | ⟨rfl, b', hw', hb'⟩⟩ := h.of_redirect hred
  · rw [hadd] at hw
    cases hw
  · obtain rfl := Option.some.inj (hw.symm.trans hw')
    obtain ⟨hslot, rfl⟩ := Prod.mk.inj (Option.some.inj (hb.symm.trans hb'))
    obtain rfl := h.unique e he e' he' hslot
    exact ⟨hdirect, rfl, rfl, rfl⟩

lemma Decided.redirect_interior (h : Decided f r) (he : e ∈ r.elisions) {lhs : ℕ} {k : Word}
    (ha : f.insts[a]? = some (.binopI .add lhs k)) (hb : base f a = some (e.slot, off)) {o : ℤ}
    (hred : (a, d, o) ∈ r.redirects) : e.direct = true ∧ d = e.dst ∧ o = off := by
  obtain ⟨e', he', hdirect, rfl, ⟨_, hb'⟩ | ⟨rfl, b', hw', _⟩⟩ := h.of_redirect hred
  · obtain ⟨hslot, rfl⟩ := Prod.mk.inj (Option.some.inj (hb.symm.trans hb'))
    obtain rfl := h.unique e he e' he' hslot
    exact ⟨hdirect, rfl, rfl⟩
  · rw [ha] at hw'
    cases hw'

lemma redirect_redirect : redirect d off (redirect d off inst) = redirect d off inst := by
  cases inst <;> rfl

lemma plain_of_writeAddr (hw : writeAddr inst = some b) : callSite inst = none ∧ (∀ off, inst ≠ .localAddr off) ∧
    ∀ d s size align, inst ≠ .mcpy d s size align := by
  rcases writeAddr_eq_some hw with ⟨_, _, _, _, _, _, rfl⟩ | ⟨_, _, rfl⟩
  · exact ⟨rfl, fun _ => nofun, fun _ _ _ _ => nofun⟩
  · exact ⟨rfl, fun _ => nofun, fun _ _ _ _ => nofun⟩

/-- A write of a temporary: through the base it takes the destination, where writes take that; else it stays. -/
lemma Decided.edited_write (h : Decided f r) (he : e ∈ r.elisions) (hinst : f.insts[w]? = some inst)
    (hw : writeAddr inst = some b) (hb : base f b = some (e.slot, off)) :
    (edited r f).insts[w]? = some (if e.direct ∧ off = 0 then redirect e.dst 0 inst else inst) := by
  obtain ⟨hcall, hname, hcopy⟩ := plain_of_writeAddr hw
  have hbind : (f.insts[w]?).bind writeAddr = some b := by rw [hinst]; exact hw
  refine h.after_redirects hinst hcopy ?_
  have hbefore := before_redirects hinst hcall (h.not_named hinst hname)
  obtain ⟨src, size, align, hmcpy, _⟩ := h.copy e he
  split
  · rename_i hcond
    obtain ⟨hdirect, rfl⟩ := hcond
    refine getElem?_foldl_modify (g := fun q : ℕ × ℤ => redirect q.1 q.2) hbefore
      ⟨(w, e.dst, 0), ?_, rfl⟩ ?_
    · exact (h.redirects w e.dst 0).mpr ⟨e, he, hdirect, rfl,
        (h.planned e he).redirect_base (h.slot_neg he) hmcpy hbind hb⟩
    · rintro ⟨w', d, o⟩ hp rfl
      obtain ⟨_, rfl, rfl, _⟩ := h.redirect_write he hbind hb hp
      exact ⟨rfl, redirect_redirect⟩
  · rename_i hcond
    refine getElem?_foldl_modify_of_fixed (g := fun q : ℕ × ℤ => redirect q.1 q.2) hbefore ?_
    rintro ⟨w', d, o⟩ hp rfl
    obtain ⟨hdirect, _, _, rfl⟩ := h.redirect_write he hbind hb hp
    exact absurd ⟨hdirect, rfl⟩ hcond

/-- An interior address of a temporary that is redirected. -/
lemma Decided.edited_interior (h : Decided f r) (he : e ∈ r.elisions) (hdirect : e.direct = true) {lhs : ℕ} {k : Word}
    (ha : f.insts[a]? = some (.binopI .add lhs k)) (hb : base f a = some (e.slot, off))
    (hplan : (a, off) ∈ e.plan.redirects) :
    (edited r f).insts[a]? = some (.binopI .add e.dst (BitVec.ofInt 64 off)) := by
  refine h.after_redirects ha (fun _ _ _ _ => nofun) ?_
  refine getElem?_foldl_modify (g := fun q : ℕ × ℤ => redirect q.1 q.2)
    (before_redirects ha rfl (h.not_named ha fun _ => nofun)) ⟨(a, e.dst, off), ?_, rfl⟩ ?_
  · exact (h.redirects a e.dst off).mpr ⟨e, he, hdirect, rfl, hplan⟩
  · rintro ⟨a', d, o⟩ hp rfl
    obtain ⟨_, rfl, rfl⟩ := h.redirect_interior he ha hb hp
    exact ⟨rfl, rfl⟩

lemma Decided.edited_addition (h : Decided f r) (he : e ∈ r.elisions) (hdirect : e.direct = false) {lhs : ℕ} {k : Word}
    (ha : f.insts[a]? = some (.binopI .add lhs k)) (hb : base f a = some (e.slot, off)) :
    (edited r f).insts[a]? = some (.binopI .add lhs k) := by
  refine h.after_redirects ha (fun _ _ _ _ => nofun) ?_
  refine getElem?_foldl_modify_of_fixed (g := fun q : ℕ × ℤ => redirect q.1 q.2)
    (before_redirects ha rfl (h.not_named ha fun _ => nofun)) ?_
  rintro ⟨a', d, o⟩ hp rfl
  exact absurd (hdirect.symm.trans (h.redirect_interior he ha hb hp).1) (nomatch ·)

/-- Redirections concern writes and additions. -/
lemma Decided.redirects_address (h : Decided f r) (hinst : f.insts[i]? = some inst)
    (haddress : ∃ off, inst = .localAddr off ∨ inst = .immData off) : ∀ p ∈ r.redirects, p.1 ≠ i := by
  rintro ⟨i', d, o⟩ hp rfl
  obtain ⟨off, haddress⟩ := haddress
  obtain ⟨_, _, _, _, ⟨⟨_, _, hadd⟩, _⟩ | ⟨_, _, hw, _⟩⟩ := h.of_redirect hp
  · rcases haddress with rfl | rfl
    · cases Option.some.inj (hinst.symm.trans hadd)
    · cases Option.some.inj (hinst.symm.trans hadd)
  · rw [hinst] at hw
    rcases haddress with rfl | rfl
    · cases hw
    · cases hw

/-- The destination of an elision has no base of a temporary for its value. -/
lemma Decided.dst_not_named (h : Decided f r) (he : e ∈ r.elisions) : ∀ p ∈ r.namedAt, p.1 ≠ e.dst := by
  rintro ⟨a, d⟩ hp heq
  obtain ⟨e', he', _, _, hroot⟩ := (h.namedAt a d).mp hp
  obtain rfl : a = e.dst := heq
  have hplan := h.planned e' he'
  have hlocal := hplan.of_root (h.slot_neg he') hroot
  obtain ⟨src, size, align, hmcpy, hsrc⟩ := h.copy e he
  -- The copy uses the destination, so the other plan has to be this copy's own.
  have huse : e.mcpy ∈ users f e.dst := mem_users hmcpy (.head _)
  rcases hplan.uses e.dst (addrsOf_isSome hlocal) e.mcpy huse with heq | ⟨_, inst, hinst, hspan | haddr⟩ | ⟨inst, hinst, hpure, _⟩
  · obtain ⟨src', size', align', hmcpy', hsrc'⟩ := h.copy e' he'
    rw [← heq] at hmcpy'
    obtain ⟨-, rfl, -⟩ := Inst.mcpy.inj (Option.some.inj (hmcpy.symm.trans hmcpy'))
    have hslot := (Prod.mk.inj (Option.some.inj (hsrc.symm.trans hsrc'))).1
    obtain rfl := h.unique e he e' he' hslot
    exact h.apart e he 0 (base_of_localAddr hlocal (h.slot_neg he))
  · obtain rfl := Option.some.inj (hmcpy.symm.trans hinst)
    cases hspan
  · obtain ⟨o, ho⟩ := Option.isSome_iff_exists.mp haddr
    rcases baseOf_succ (base_of_addrsOf hplan.here (h.slot_neg he') ho).1 with ⟨hl, _⟩ | ⟨_, _, _, hadd, _⟩
    · cases Option.some.inj (hmcpy.symm.trans hl)
    · cases Option.some.inj (hmcpy.symm.trans hadd)
  · obtain rfl := Option.some.inj (hmcpy.symm.trans hinst)
    cases hpure

lemma Decided.dst_not_renamed (h : Decided f r) (he : e ∈ r.elisions) : ∀ p ∈ r.renamed, p.1 ≠ e.dst := by
  intro p hp heq
  obtain ⟨slot, _, _, hne, husers⟩ := h.renamed p hp
  obtain ⟨src, size, align, hmcpy, hsrc⟩ := h.copy e he
  have huse : e.mcpy ∈ users f p.1 := heq ▸ mem_users hmcpy (.head _)
  have hslot := husers e.mcpy huse e.dst src size align hmcpy
  exact hne e he (Prod.mk.inj (Option.some.inj (hsrc.symm.trans hslot))).1

/-- A destination that is an address stays as it is. -/
lemma Decided.edited_dst (h : Decided f r) (he : e ∈ r.elisions) (hinst : f.insts[e.dst]? = some inst)
    (haddress : ∃ off, inst = .localAddr off ∨ inst = .immData off) :
    (edited r f).insts[e.dst]? = some inst := by
  have hcall : callSite inst = none := by
    obtain ⟨off, rfl | rfl⟩ := haddress
    · rfl
    · rfl
  refine h.after_redirects hinst ?_ ?_
  · obtain ⟨off, rfl | rfl⟩ := haddress
    · exact fun _ _ _ _ => nofun
    · exact fun _ _ _ _ => nofun
  · refine getElem?_foldl_modify_of_fixed (g := fun q : ℕ × ℤ => redirect q.1 q.2)
      (before_redirects hinst hcall ⟨h.dst_not_renamed he, h.dst_not_named he⟩) ?_
    exact fun p hp heq => absurd heq (h.redirects_address hinst haddress p hp)

/-- The destination is read. -/
lemma Decided.dst_live (h : Decided f r) (he : e ∈ r.elisions) : isLive (edited r f) e.dst = true := by
  obtain ⟨src, size, align, hmcpy, _⟩ := h.copy e he
  suffices hcopied : (edited r f).insts[e.mcpy]? = some (.copy e.dst false) from
    isLive_of_operand hcopied (.head _)
  have hbefore := getElem?_foldl_modify_of_fixed (g := fun q : ℕ × ℤ => redirect q.1 q.2) (l := r.redirects)
    (before_redirects hmcpy rfl (h.not_named hmcpy fun _ => nofun)) fun _ _ _ => rfl
  have hfold := getElem?_foldl_set (l := r.elided.map fun p => (p.1, Inst.copy p.2 false)) (x := .copy e.dst false)
    (List.getElem?_eq_some_iff.mp hbefore).1 ⟨_, List.mem_map_of_mem (h.elides e he), rfl⟩ ?_
  · rwa [List.foldl_map] at hfold
  · intro p hp hk
    obtain ⟨q, hq, rfl⟩ := List.mem_map.mp hp
    obtain ⟨_, _, _, hmcpy'⟩ := h.elided q hq
    rw [show q.1 = e.mcpy from hk] at hmcpy'
    rw [(Inst.mcpy.inj (Option.some.inj (hmcpy.symm.trans hmcpy'))).1]

/-- A base that takes the destination's address. -/
lemma Decided.edited_root (h : Decided f r) (he : e ∈ r.elisions) (hdirect : e.direct = false)
    (hroot : a ∈ e.plan.roots) (hdst : f.insts[e.dst]? = some inst)
    (haddress : ∃ off, inst = .localAddr off ∨ inst = .immData off) :
    (edited r f).insts[a]? = some inst := by
  have hlocal := (h.planned e he).of_root (h.slot_neg he) hroot
  have hcall : callSite inst = none := by
    obtain ⟨off, rfl | rfl⟩ := haddress
    · rfl
    · rfl
  refine h.after_redirects hlocal (fun _ _ _ _ => nofun) ?_
  have hbefore := before_naming (r := r) hlocal rfl fun p hp heq => by
    obtain ⟨slot, hlocal', _, hne, _⟩ := h.renamed p hp
    rw [heq] at hlocal'
    exact hne e he (Inst.localAddr.inj (Option.some.inj (hlocal.symm.trans hlocal')))
  refine getElem?_foldl_modify_of_fixed (g := fun q : ℕ × ℤ => redirect q.1 q.2) ?_
    fun p hp heq => absurd heq (h.redirects_address hlocal ⟨e.slot, .inl rfl⟩ p hp)
  refine foldl_nameAt_of_mem (h.dst_not_named he) ((h.namedAt a e.dst).mpr ⟨e, he, hdirect, rfl, hroot⟩) ?_
    (List.getElem?_eq_some_iff.mp hbefore).1 (before_naming hdst hcall (h.dst_not_renamed he))
  rintro ⟨a', d⟩ hp rfl
  obtain ⟨e', he', _, rfl, hroot'⟩ := (h.namedAt a' d).mp hp
  have hlocal' := (h.planned e' he').of_root (h.slot_neg he') hroot'
  rw [h.unique e he e' he' (Inst.localAddr.inj (Option.some.inj (hlocal.symm.trans hlocal')))]

/-! ## Symbols -/

lemma Decided.named_apart (h : Decided f r) : ∀ p ∈ r.namedAt, ∀ q ∈ r.namedAt, p.1 ≠ q.2 := by
  rintro p hp ⟨a, d⟩ hq
  obtain ⟨e, he, _, rfl, _⟩ := (h.namedAt a d).mp hq
  exact h.dst_not_named he p hp

lemma Decided.mem_apply_immData (h : Decided f r) (hne : r.elided ≠ []) {k x : ℕ}
    (hfun : ∀ k x y, (k, x) ∈ f.externImmDataRefs → (k, y) ∈ f.externImmDataRefs → x = y) :
    (k, x) ∈ (apply r f).externImmDataRefs ↔
      (k, x) ∈ f.externImmDataRefs ∨ ∃ d, (k, d) ∈ r.namedAt ∧ (d, x) ∈ f.externImmDataRefs := by
  rw [apply_eq hne]
  exact mem_foldl_nameAt_immData h.named_apart hfun

end Badc.CopyElide
