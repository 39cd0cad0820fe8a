import Badc.Ssa.Dominators
import Badc.Lib.TreeStamps

/-!
# Numbering of the dominator tree

`DomOrder` of `src/c5/codegen/ssa/mem2reg.rs`: entry and exit numbers of the
immediate-dominator forest, so that a dominance query is two comparisons.  The linked lists of
children are plain lists here.  `dominates_iff` says that on the dominators of a closed graph
the query answers dominance.
-/

namespace Badc

open TreeStamps

/-- The children of a block in the forest of an immediate-dominator assignment, ascending. -/
def domChildren (idom : Idoms) (n : ℕ) (b : ℕ) : List ℕ :=
  (List.range n).filter fun c => idom c = some b ∧ c ≠ b

/-- Entry and exit numbers of the immediate-dominator forest. -/
structure DomOrder where
  tin : ℕ → Option ℕ
  tout : ℕ → ℕ

namespace DomOrder

/-- A block whose immediate dominator is absent, itself or out of range heads its own tree. -/
def isRoot (idom : Idoms) (n b : ℕ) : Bool :=
  match idom b with
  | none => true
  | some up => up = b || n ≤ up

/-- The roots of the forest, in the order the source walks them. -/
def roots (idom : Idoms) (n : ℕ) : List ℕ := ((List.range n).filter (isRoot idom n)).reverse

/-- Rounds the walk over one tree takes at most. -/
def fuel (children : ℕ → List ℕ) (n : ℕ) : ℕ :=
  (∑ b ∈ Finset.range n, ((children b).length + 2)) + 1

/-- Walk over the tree of one root; the exit number is the last entry number given. -/
def walkRoot (children : ℕ → List ℕ) (n : ℕ) (s : Stamps) (r : ℕ) : Stamps :=
  whileSome (step children true (fun c => c - 1)) (fuel children n)
    { s with stack := (r, false) :: s.stack }

/-- Number the forest. -/
def build (idom : Idoms) (n : ℕ) : DomOrder :=
  let s := (roots idom n).foldl (walkRoot (domChildren idom n) n) {}
  { tin := s.tin, tout := s.tout }

/-- Whether block `a` dominates block `b`. -/
def dominates (o : DomOrder) (a b : ℕ) (idom : Idoms) : Bool :=
  if a = b then true
  else
    (match o.tin a, o.tin b with
      | some ta, some tb => ta < tb && tb ≤ o.tout a
      | _, _ => false) || (a = 0 && (idom b).isSome)

end DomOrder

section

variable {po : List ℕ} {idom : Idoms} {n : ℕ}

lemma mem_domChildren {b c : ℕ} : c ∈ domChildren idom n b ↔ c < n ∧ idom c = some b ∧ c ≠ b := by
  simp [domChildren]

/-- The children of a dominator tree form a forest, ranked by postorder number. -/
lemma domChildren_forest (h : SuccGraph.TreeInv po idom) :
    Forest (domChildren idom n) po.idxOf where
  rank_lt b c hc := by
    obtain ⟨-, hcb, hne⟩ := mem_domChildren.mp hc
    refine (h.parent c b hcb ?_).2
    rintro rfl
    rw [h.root] at hcb
    exact hne (Option.some.inj hcb)
  unique b b' c hc hc' := by
    have h1 := (mem_domChildren.mp hc).2.1
    have h2 := (mem_domChildren.mp hc').2.1
    rw [h1] at h2
    exact Option.some.inj h2
  nodup b := List.nodup_range.filter _

/-- Descendants in the forest are the blocks with the given ancestor. -/
lemma desc_domChildren_iff (hn : ∀ b, (idom b).isSome → b < n) {d e : ℕ} :
    Desc (domChildren idom n) d e ↔ Anc idom d e := by
  constructor
  · intro h
    induction h with
    | refl => exact .refl
    | down _ hce ih => exact .up (mem_domChildren.mp hce).2.1 ih
  · intro h
    induction h with
    | refl => exact .refl
    | @up e p hp _ ih =>
      by_cases hep : e = p
      · exact hep ▸ ih
      · exact .down ih (mem_domChildren.mpr ⟨hn e (by simp [hp]), hp, hep⟩)

namespace DomOrder

/-- Walking over the trees of a list of roots, one after the other. -/
lemma foldl_walkRoot {children : ℕ → List ℕ} {rank : ℕ → ℕ} (hf : Forest children rank)
    {l : List ℕ} (hl : DisjointTrees children l) (s : Stamps) (hs : s.stack = [])
    (hnone : ∀ r ∈ l, ∀ d, Desc children r d → d < n ∧ s.tin d = none) :
    (l.foldl (walkRoot children n) s).stack = [] ∧
      Walked children (· + 1) (fun d => ∃ r ∈ l, Desc children r d) s
        (l.foldl (walkRoot children n) s) := by
  induction l generalizing s with
  | nil =>
    refine ⟨hs, le_rfl, ?_, fun d _ => ⟨rfl, rfl⟩⟩
    rintro d ⟨r, hr, -⟩
    simp at hr
  | cons r l ih =>
    unfold DisjointTrees at hl
    rw [List.pairwise_cons] at hl
    have hroot : ∃ s₁, walkRoot children n s r = s₁ ∧ s₁.stack = [] ∧
        Walked children (· + 1) (Desc children r) s s₁ := by
      have hopen : ∀ c : ℕ, 0 < c → (· + 1) ((fun c => c - 1) c) = c := fun c hc => by
        dsimp only
        omega
      obtain ⟨k, s₁, hr, hst, hm, hw⟩ : ∃ k s', Rounds (step children true (fun c => c - 1)) k
          { s with stack := (r, false) :: s.stack } s' ∧ s'.stack = [] ∧
          k + roundsLeft children n s' ≤
            roundsLeft children n { s with stack := (r, false) :: s.stack } ∧
          Walked children (· + 1) (Desc children r)
            { s with stack := (r, false) :: s.stack } s' :=
        visit_laid hf hopen r _ [] (by simp [hs]) (fun d hd => hnone r (by simp) d hd)
      refine ⟨s₁, ?_, hst, ⟨hw.clock_le, hw.laid, hw.frame⟩⟩
      refine hr.whileSome_eq (by simp [step, hst]) ?_
      have hle : roundsLeft children n { s with stack := (r, false) :: s.stack } ≤
          fuel children n := by
        unfold roundsLeft fuel
        refine Nat.add_le_add (Finset.sum_le_sum_of_subset (Finset.filter_subset _ _)) ?_
        simp [hs]
      omega
    obtain ⟨s₁, hs₁, hst₁, hw₁⟩ := hroot
    obtain ⟨hst₂, hw₂⟩ := ih hl.2 s₁ hst₁ fun r' hr' d hd => by
      rw [(hw₁.frame d fun hrd => hl.1 r' hr' d hrd hd).1]
      exact hnone r' (by simp [hr']) d hd
    rw [List.foldl_cons, hs₁]
    refine ⟨hst₂, ?_⟩
    have happ := hw₁.append hw₂
      (fun d hd h => by
        obtain ⟨c', hc', hd'⟩ := h
        exact hl.1 c' hc' d hd hd')
      (fun d e hd hde h => by
        obtain ⟨c', hc', he⟩ := h
        exact hl.1 c' hc' e (hd.trans hde) he)
      (fun d e h hde he => by
        obtain ⟨c', hc', hd⟩ := h
        exact hl.1 c' hc' e he (hd.trans hde))
    have hset : (fun d => Desc children r d ∨ ∃ r' ∈ l, Desc children r' d) =
        fun d => ∃ r' ∈ r :: l, Desc children r' d := by
      funext d
      simp
    exact hset ▸ happ

/-- The trees of different roots are disjoint. -/
lemma disjoint_roots (h : SuccGraph.TreeInv po idom) :
    DisjointTrees (domChildren idom n) (roots idom n) := by
  unfold DisjointTrees roots
  rw [List.pairwise_reverse]
  -- A root is nobody's child, so of two comparable roots one is the other.
  have hroot : ∀ r r', r < n → isRoot idom n r' = true →
      Desc (domChildren idom n) r r' → r = r' := by
    intro r r' hr hr' hd
    cases hd with
    | refl => rfl
    | @down c _ hrc hcr =>
      obtain ⟨-, hc, hne⟩ := mem_domChildren.mp hcr
      have hcn : c < n := by
        cases hrc with
        | refl => exact hr
        | down _ hm => exact (mem_domChildren.mp hm).1
      simp only [isRoot, hc, Bool.or_eq_true, decide_eq_true_eq] at hr'
      omega
  refine (List.nodup_range.filter _).imp_of_mem fun {r r'} hr hr' hne d hd hd' => hne ?_
  rw [List.mem_filter, List.mem_range] at hr hr'
  rcases (domChildren_forest (n := n) h).desc_total hd hd' with hrr | hrr
  · exact (hroot r' r hr'.1 hr.2 hrr).symm
  · exact hroot r r' hr.1 hr'.2 hrr

/-- The numbers of a dominator tree: every block below `n` gets its interval. -/
lemma build_laid (h : SuccGraph.TreeInv po idom) (hn : ∀ b, (idom b).isSome → b < n) :
    ∃ s : Stamps, (build idom n).tin = s.tin ∧ (build idom n).tout = s.tout ∧
      Laid (domChildren idom n) (· + 1) s (· < n) 0 s.clock ∧ ∀ d, n ≤ d → s.tin d = none := by
  have hdown : ∀ r d, r < n → Desc (domChildren idom n) r d → d < n := by
    intro r d hr hd
    cases hd with
    | refl => exact hr
    | down _ hm => exact (mem_domChildren.mp hm).1
  have hlt : ∀ r ∈ roots idom n, r < n := fun r hr =>
    List.mem_range.mp (List.mem_filter.mp (List.mem_reverse.mp hr)).1
  obtain ⟨-, hw⟩ := foldl_walkRoot (n := n) (domChildren_forest (n := n) h) (disjoint_roots h) {} rfl
    fun r hr d hd => ⟨hdown r d (hlt r hr) hd, rfl⟩
  have hzero : 0 ∈ roots idom n := by
    have h0 : 0 < n := hn 0 (by rw [h.root]; rfl)
    simp [roots, isRoot, h.root, h0]
  -- The blocks below `n` are those below some root.
  have hD : (fun d => ∃ r ∈ roots idom n, Desc (domChildren idom n) r d) = (· < n) := by
    funext d
    refine propext ⟨fun ⟨r, hr, hd⟩ => hdown r d (hlt r hr) hd, fun hd => ?_⟩
    cases hi : idom d with
    | none => exact ⟨d, by simp [roots, isRoot, hi, hd], .refl⟩
    | some up => exact ⟨0, hzero, (desc_domChildren_iff hn).mpr (h.zero_anc (by simp [hi]))⟩
  rw [hD] at hw
  exact ⟨_, rfl, rfl, hw.laid, fun d hd => (hw.frame d (Nat.not_lt.mpr hd)).1⟩

/-- The interval of a block lies inside another's only below it. -/
lemma anc_of_stamps (h : SuccGraph.TreeInv po idom) (hn : ∀ b, (idom b).isSome → b < n) {a b ta tb : ℕ}
    (hb : b < n) (hta : (build idom n).tin a = some ta) (htb : (build idom n).tin b = some tb)
    (hlt : ta < tb) (hle : tb ≤ (build idom n).tout a) : Anc idom a b := by
  obtain ⟨s, hin, hout, hlaid, hnone⟩ := build_laid h hn
  rw [hin] at hta htb
  rw [hout] at hle
  have han : a < n := by
    by_contra hge
    exact nomatch (hnone a (Nat.not_lt.mp hge)).symm.trans hta
  obtain ⟨-, -, -, -, ha5⟩ := hlaid a han
  by_contra hno
  have := (ha5 b hb).2 fun hd => hno ((desc_domChildren_iff hn).mp hd)
  have hloa : lo s a = ta := by simp [lo, hta]
  have hlob : lo s b = tb := by simp [lo, htb]
  have hhia : hi (· + 1) s a = s.tout a + 1 := rfl
  omega

/-- On a dominator tree, the query answers ancestry of the blocks of the tree. -/
theorem dominates_iff (h : SuccGraph.TreeInv po idom) (hn : ∀ b, (idom b).isSome → b < n)
    {a b : ℕ} (hb : (idom b).isSome) :
    (build idom n).dominates a b idom = true ↔ Anc idom a b := by
  by_cases hab : a = b
  · subst hab
    simp [dominates, Anc.refl]
  obtain ⟨s, hin, hout, hlaid, -⟩ := build_laid h hn
  obtain ⟨hbs, -, hb3, -, hb5⟩ := hlaid b (hn b hb)
  obtain ⟨tb, htb⟩ := Option.isSome_iff_exists.mp hbs
  have hlob : lo s b = tb := by simp [lo, htb]
  simp only [dominates, hab, if_false, Bool.or_eq_true, Bool.and_eq_true, decide_eq_true_eq, hb, and_true]
  constructor
  · rintro (hlt | rfl)
    · cases hta : (build idom n).tin a with
      | none => simp [hta] at hlt
      | some ta =>
        rw [hin] at hlt hta
        simp only [hta, htb, Bool.and_eq_true, decide_eq_true_eq] at hlt
        exact anc_of_stamps h hn (hn b hb) (hin ▸ hta) (hin ▸ htb) hlt.1 hlt.2
    · exact h.zero_anc hb
  · intro hanc
    left
    have han := hn a (h.isSome_of_anc hanc hb)
    obtain ⟨has, -, ha3, -, ha5⟩ := hlaid a han
    obtain ⟨ta, hta⟩ := Option.isSome_iff_exists.mp has
    have hloa : lo s a = ta := by simp [lo, hta]
    have hhia : hi (· + 1) s a = s.tout a + 1 := rfl
    have hin' := (ha5 b (hn b hb)).1 ((desc_domChildren_iff hn).mpr hanc)
    have hout' := (hb5 a han).2 fun hd => by
      have h1 := h.idxOf_lt_of_anc hanc hb hab
      have h2 := h.idxOf_le_of_anc ((desc_domChildren_iff hn).mp hd)
      omega
    rw [hin, hout, hta, htb]
    simp only [Bool.and_eq_true, decide_eq_true_eq]
    omega

/-- A block without an immediate dominator is dominated by itself only, says the query. -/
lemma dominates_of_none (h : SuccGraph.TreeInv po idom) (hn : ∀ b, (idom b).isSome → b < n) {a b : ℕ}
    (hb : idom b = none) : (build idom n).dominates a b idom = true ↔ a = b := by
  by_cases hab : a = b
  · simp [dominates, hab]
  refine iff_of_false (fun hq => ?_) hab
  simp only [dominates, hab, if_false, hb, Option.isSome_none, Bool.and_false, Bool.or_false] at hq
  split at hq
  · rename_i ta tb hta htb
    simp only [Bool.and_eq_true, decide_eq_true_eq] at hq
    have hbn : b < n := by
      obtain ⟨s, hin, -, -, hnone⟩ := build_laid h hn
      by_contra hge
      rw [hin, hnone b (Nat.not_lt.mp hge)] at htb
      cases htb
    cases anc_of_stamps h hn hbn hta htb hq.1 hq.2 with
    | refl => exact hab rfl
    | up hp _ => exact nomatch hb.symm.trans hp
  · cases hq

end DomOrder

/-- On the dominators of a closed graph the query answers dominance. -/
theorem SuccGraph.dominates_iff_dom {g : SuccGraph} (hg : g.Closed) (h0 : 0 < g.size) {a b : ℕ}
    (hb : g.Reach b) :
    (DomOrder.build g.dominatorsOf g.size).dominates a b g.dominatorsOf = true ↔ g.Dom a b := by
  obtain ⟨htree, hreach, hdom⟩ := dominatorsOf_spec hg h0
  rw [DomOrder.dominates_iff htree (fun c hc => ((hreach c).mp hc).lt_size hg h0)
    ((hreach b).mpr hb), hdom a b hb]

end

end Badc
