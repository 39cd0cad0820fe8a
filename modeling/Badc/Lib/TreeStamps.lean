import Badc.Lib.Loop

/-!
# Entry and exit stamps of a forest

An explicit-stack walk over a forest given by its lists of children, numbering each node when
it is entered and recording the clock when it is left, so that an ancestor test is a comparison
of intervals.  The walk is parametrised by whether an already numbered node is skipped and by
how the exit number is read off the clock.

`visit_laid` and `visitList_laid` say what a walk over one tree and over a list of disjoint
trees leaves: the descendants of a node are exactly the nodes whose entry number lies in the
node's interval (`Laid`), and nothing outside the trees changes.
-/

namespace Badc.TreeStamps

/-- State of the walk; a stack entry is a node and whether it is to be left. -/
structure Stamps where
  tin : ℕ → Option ℕ := fun _ => none
  tout : ℕ → ℕ := fun _ => 0
  clock : ℕ := 0
  stack : List (ℕ × Bool) := []

/-- One round of the walk: leave the node on top of the stack, or enter it and push its
children, the first child lowest. -/
def step (children : ℕ → List ℕ) (skip : Bool) (close : ℕ → ℕ) (s : Stamps) : Option Stamps :=
  match s.stack with
  | [] => none
  | (b, true) :: rest => some { s with tout := Function.update s.tout b (close s.clock)
                                       stack := rest }
  | (b, false) :: rest =>
    if skip && (s.tin b).isSome then some { s with stack := rest }
    else some { s with
      tin := Function.update s.tin b (some s.clock)
      clock := s.clock + 1
      stack := ((children b).reverse.map fun c => (c, false)) ++ (b, true) :: rest }

/-- `Desc children d e`: `e` is `d` or below it. -/
inductive Desc (children : ℕ → List ℕ) (d : ℕ) : ℕ → Prop
  | refl : Desc children d d
  | down {c e : ℕ} : Desc children d c → e ∈ children c → Desc children d e

section

variable {children : ℕ → List ℕ} {a b c d e : ℕ}

lemma Desc.trans (hab : Desc children a b) (hbc : Desc children b c) : Desc children a c := by
  induction hbc with
  | refl => exact hab
  | down _ hce ih => exact .down ih hce

lemma Desc.head (h : Desc children b e) : e = b ∨ ∃ c ∈ children b, Desc children c e := by
  induction h with
  | refl => exact Or.inl rfl
  | @down c e hbc hce ih =>
    rcases ih with rfl | ⟨c', hc', hd⟩
    · exact Or.inr ⟨e, hce, .refl⟩
    · exact Or.inr ⟨c', hc', .down hd hce⟩

/-- A forest: a rank falls towards the children, a node is listed under one parent at most, and
once. -/
structure Forest (children : ℕ → List ℕ) (rank : ℕ → ℕ) : Prop where
  rank_lt : ∀ b c, c ∈ children b → rank c < rank b
  unique : ∀ b b' c, c ∈ children b → c ∈ children b' → b = b'
  nodup : ∀ b, (children b).Nodup

variable {rank : ℕ → ℕ}

lemma Forest.rank_le (h : Forest children rank) (hd : Desc children d e) : rank e ≤ rank d := by
  induction hd with
  | refl => exact le_rfl
  | down _ hce ih => exact le_trans (h.rank_lt _ _ hce).le ih

/-- Two nodes above a common one are comparable. -/
lemma Forest.desc_total (h : Forest children rank) (ha : Desc children a e)
    (hb : Desc children b e) : Desc children a b ∨ Desc children b a := by
  induction ha with
  | refl => exact Or.inr hb
  | @down c e hac hce ih =>
    cases hb with
    | refl => exact Or.inl (.down hac hce)
    | @down c' _ hbc' hc'e =>
      obtain rfl := h.unique c c' e hce hc'e
      exact ih hbc'

lemma Forest.not_desc_of_child (h : Forest children rank) (hc : c ∈ children b)
    (hd : Desc children c d) : ¬ Desc children d b := by
  intro hdb
  have h1 := h.rank_lt b c hc
  have h2 := h.rank_le hd
  have h3 := h.rank_le hdb
  omega

/-- The trees below two different children of a node are disjoint. -/
lemma Forest.child_disjoint (h : Forest children rank) {c c' : ℕ} (hc : c ∈ children b)
    (hc' : c' ∈ children b) (hne : c ≠ c') (hd : Desc children c d) : ¬ Desc children c' d := by
  intro hd'
  have hlt := h.rank_lt b c hc
  have hlt' := h.rank_lt b c' hc'
  -- One of the two is below the other, hence below `b` through a second parent.
  rcases h.desc_total hd hd' with hcc | hcc
  · cases hcc with
    | refl => exact hne rfl
    | @down p _ hcp hpc =>
      obtain rfl := h.unique p b c' hpc hc'
      have := h.rank_le hcp
      omega
  · cases hcc with
    | refl => exact hne rfl
    | @down p _ hcp hpc =>
      obtain rfl := h.unique p b c hpc hc
      have := h.rank_le hcp
      omega

end

section Walk

variable {children : ℕ → List ℕ} {rank : ℕ → ℕ} {skip : Bool} {close openAt : ℕ → ℕ}

/-- Entry number of a node. -/
def lo (s : Stamps) (d : ℕ) : ℕ := (s.tin d).getD 0

/-- Clock at which a node was left, read back from its exit number. -/
def hi (openAt : ℕ → ℕ) (s : Stamps) (d : ℕ) : ℕ := openAt (s.tout d)

/-- The nodes of `D` are numbered between the clocks `c` and `c'`, and the descendants of a node
are those whose numbers lie in its interval. -/
def Laid (children : ℕ → List ℕ) (openAt : ℕ → ℕ) (s : Stamps) (D : ℕ → Prop) (c c' : ℕ) :
    Prop :=
  ∀ d, D d → (s.tin d).isSome ∧ c ≤ lo s d ∧ lo s d < hi openAt s d ∧ hi openAt s d ≤ c' ∧
    ∀ e, D e → (Desc children d e → lo s d ≤ lo s e ∧ hi openAt s e ≤ hi openAt s d) ∧
      (¬ Desc children d e → lo s e < lo s d ∨ hi openAt s d ≤ lo s e)

/-- Numbers depend on the stamps of the nodes only. -/
lemma Laid.congr {s s' : Stamps} {D : ℕ → Prop} {c c' : ℕ}
    (h : Laid children openAt s D c c')
    (hs : ∀ d, D d → s'.tin d = s.tin d ∧ s'.tout d = s.tout d) :
    Laid children openAt s' D c c' := by
  have hlo : ∀ d, D d → lo s' d = lo s d := fun d hd => by rw [lo, lo, (hs d hd).1]
  have hhi : ∀ d, D d → hi openAt s' d = hi openAt s d := fun d hd => by
    rw [hi, hi, (hs d hd).2]
  intro d hd
  obtain ⟨h1, h2, h3, h4, h5⟩ := h d hd
  rw [hlo d hd, hhi d hd, (hs d hd).1]
  refine ⟨h1, h2, h3, h4, fun e he => ?_⟩
  rw [hlo e he, hhi e he]
  exact h5 e he

/-- What a walk over the nodes of `D` from state `s` to state `s'` leaves. -/
structure Walked (children : ℕ → List ℕ) (openAt : ℕ → ℕ) (D : ℕ → Prop) (s s' : Stamps) :
    Prop where
  clock_le : s.clock ≤ s'.clock
  laid : Laid children openAt s' D s.clock s'.clock
  frame : ∀ d, ¬ D d → s'.tin d = s.tin d ∧ s'.tout d = s.tout d

/-- Two walks over disjoint sets of nodes, the second after the first, are one walk. -/
lemma Walked.append {D D' : ℕ → Prop} {s s₁ s₂ : Stamps} (h : Walked children openAt D s s₁)
    (h' : Walked children openAt D' s₁ s₂) (hdisj : ∀ d, D d → ¬ D' d)
    (hdown : ∀ d e, D d → Desc children d e → ¬ D' e)
    (hdown' : ∀ d e, D' d → Desc children d e → ¬ D e) :
    Walked children openAt (fun d => D d ∨ D' d) s s₂ where
  clock_le := le_trans h.clock_le h'.clock_le
  laid := by
    have h₂ : Laid children openAt s₂ D s.clock s₁.clock :=
      h.laid.congr fun d hd => h'.frame d (hdisj d hd)
    have hc := h.clock_le
    have hc' := h'.clock_le
    rintro d (hd | hd)
    · obtain ⟨h1, h2, h3, h4, h5⟩ := h₂ d hd
      refine ⟨h1, h2, h3, by omega, fun e he => ?_⟩
      rcases he with he | he
      · exact h5 e he
      · refine ⟨fun hde => absurd he (hdown d e hd hde), fun _ => Or.inr ?_⟩
        obtain ⟨-, g2, -⟩ := h'.laid e he
        omega
    · obtain ⟨h1, h2, h3, h4, h5⟩ := h'.laid d hd
      refine ⟨h1, by omega, h3, h4, fun e he => ?_⟩
      rcases he with he | he
      · refine ⟨fun hde => absurd he (hdown' d e hd hde), fun _ => Or.inl ?_⟩
        obtain ⟨-, -, g3, g4, -⟩ := h₂ e he
        omega
      · exact h5 e he
  frame d hd := by
    rw [not_or] at hd
    obtain ⟨h1, h2⟩ := h'.frame d hd.2
    rw [h1, h2]
    exact h.frame d hd.1

/-- Rounds left to the walk over the nodes below `n`. -/
def roundsLeft (children : ℕ → List ℕ) (n : ℕ) (s : Stamps) : ℕ :=
  (∑ b ∈ (Finset.range n).filter fun b => (s.tin b).isNone, ((children b).length + 2)) +
    s.stack.length

/-- Entering a node below `n` lowers the measure by two. -/
lemma roundsLeft_enter {n b : ℕ} {s : Stamps} {rest : List (ℕ × Bool)} (hb : b < n)
    (hs : s.stack = (b, false) :: rest) (hnone : s.tin b = none) :
    roundsLeft children n { s with
      tin := Function.update s.tin b (some s.clock)
      clock := s.clock + 1
      stack := ((children b).reverse.map fun c => (c, false)) ++ (b, true) :: rest } + 2 =
    roundsLeft children n s := by
  have hfilter : (Finset.range n).filter (fun x => (s.tin x).isNone) =
      insert b ((Finset.range n).filter
        fun x => (Function.update s.tin b (some s.clock) x).isNone) := by
    ext x
    rw [Finset.mem_insert, Finset.mem_filter, Finset.mem_filter, Finset.mem_range]
    by_cases hx : x = b
    · simp [hx, hnone, hb]
    · simp [hx]
  have hsum : ∑ x ∈ (Finset.range n).filter (fun x => (s.tin x).isNone),
        ((children x).length + 2) =
      ((children b).length + 2) + ∑ x ∈ (Finset.range n).filter
        (fun x => (Function.update s.tin b (some s.clock) x).isNone),
        ((children x).length + 2) := by
    rw [hfilter, Finset.sum_insert (by simp)]
  rw [roundsLeft, roundsLeft, hsum]
  simp only [hs, List.length_append, List.length_map, List.length_reverse, List.length_cons]
  omega

/-- Descendants of different nodes of a list are disjoint. -/
def DisjointTrees (children : ℕ → List ℕ) (l : List ℕ) : Prop :=
  l.Pairwise fun c c' => ∀ d, Desc children c d → ¬ Desc children c' d

/-- A walk over a list of trees on the stack, given the walk over each of them. -/
lemma visitList_laid {n : ℕ} {l : List ℕ} (hl : DisjointTrees children l)
    (hvisit : ∀ c ∈ l, ∀ (s : Stamps) (rest : List (ℕ × Bool)), s.stack = (c, false) :: rest →
      (∀ d, Desc children c d → d < n ∧ s.tin d = none) →
      ∃ k s', Rounds (step children skip close) k s s' ∧ s'.stack = rest ∧
        k + roundsLeft children n s' ≤ roundsLeft children n s ∧
        Walked children openAt (Desc children c) s s')
    (s : Stamps) (rest : List (ℕ × Bool))
    (hs : s.stack = (l.map fun c => (c, false)) ++ rest)
    (hnone : ∀ c ∈ l, ∀ d, Desc children c d → d < n ∧ s.tin d = none) :
    ∃ k s', Rounds (step children skip close) k s s' ∧ s'.stack = rest ∧
      k + roundsLeft children n s' ≤ roundsLeft children n s ∧
      Walked children openAt (fun d => ∃ c ∈ l, Desc children c d) s s' := by
  induction l generalizing s with
  | nil =>
    refine ⟨0, s, .refl s, by simpa using hs, by simp, le_rfl, ?_, fun d _ => ⟨rfl, rfl⟩⟩
    rintro d ⟨c, hc, -⟩
    simp at hc
  | cons c l ih =>
    unfold DisjointTrees at hl
    rw [List.pairwise_cons] at hl
    obtain ⟨k₁, s₁, hr₁, hst₁, hm₁, hw₁⟩ := hvisit c (by simp) s _ (by simpa using hs)
      (hnone c (by simp))
    obtain ⟨k₂, s₂, hr₂, hst₂, hm₂, hw₂⟩ := ih hl.2 (fun c' hc' => hvisit c' (by simp [hc'])) s₁ hst₁
      (fun c' hc' d hd => by
        rw [(hw₁.frame d fun hcd => hl.1 c' hc' d hcd hd).1]
        exact hnone c' (by simp [hc']) d hd)
    refine ⟨k₁ + k₂, s₂, hr₁.trans hr₂, hst₂, by omega, ?_⟩
    have happ := hw₁.append hw₂
      (fun d hd ⟨c', hc', hd'⟩ => hl.1 c' hc' d hd hd')
      (fun d e hd hde ⟨c', hc', he⟩ => hl.1 c' hc' e (hd.trans hde) he)
      (fun d e ⟨c', hc', hd⟩ hde he => hl.1 c' hc' e he (hd.trans hde))
    have hset : (fun d => Desc children c d ∨ ∃ c' ∈ l, Desc children c' d) =
        fun d => ∃ c' ∈ c :: l, Desc children c' d := by
      funext d
      simp
    exact hset ▸ happ

/-- A walk over one tree. -/
theorem visit_laid (hf : Forest children rank) (hopen : ∀ c, 0 < c → openAt (close c) = c)
    {n : ℕ} (b : ℕ) (s : Stamps) (rest : List (ℕ × Bool)) (hs : s.stack = (b, false) :: rest)
    (hnone : ∀ d, Desc children b d → d < n ∧ s.tin d = none) :
    ∃ k s', Rounds (step children skip close) k s s' ∧ s'.stack = rest ∧
      k + roundsLeft children n s' ≤ roundsLeft children n s ∧
      Walked children openAt (Desc children b) s s' := by
  induction hn : rank b using Nat.strong_induction_on generalizing b s rest with
  | _ r ih =>
    -- Enter `b`.
    let s₁ : Stamps := { s with
      tin := Function.update s.tin b (some s.clock)
      clock := s.clock + 1
      stack := ((children b).reverse.map fun c => (c, false)) ++ (b, true) :: rest }
    have hstep₁ : step children skip close s = some s₁ := by
      simp [step, hs, (hnone b .refl).2, s₁]
    have hbelow : ∀ c ∈ children b, ∀ d, Desc children c d → d ≠ b := by
      rintro c hc d hd rfl
      exact hf.not_desc_of_child hc hd .refl
    -- Walk over the children.
    have hdisj : DisjointTrees children (children b).reverse := by
      unfold DisjointTrees
      rw [List.pairwise_reverse]
      refine (hf.nodup b).imp_of_mem fun {c c'} hc hc' hne d hd hd' => ?_
      exact hf.child_disjoint hc hc' hne hd' hd
    obtain ⟨k, s₂, hr₂, hst₂, hm₂, hw₂⟩ := visitList_laid (n := n) hdisj
      (fun c hc s rest hs hnone => ih (rank c)
        (hn ▸ hf.rank_lt b c (List.mem_reverse.mp hc)) c s rest hs hnone rfl) s₁ _ rfl
      (fun c hc d hd => by
        have hdb := hbelow c (List.mem_reverse.mp hc) d hd
        simp only [s₁, Function.update_of_ne hdb]
        exact hnone d ((Desc.down .refl (List.mem_reverse.mp hc)).trans hd))
    have hm₁ : roundsLeft children n s₁ + 2 = roundsLeft children n s :=
      roundsLeft_enter (hnone b .refl).1 hs (hnone b .refl).2
    -- Leave `b`.
    let s₃ : Stamps := { s₂ with tout := Function.update s₂.tout b (close s₂.clock), stack := rest }
    have hstep₃ : step children skip close s₂ = some s₃ := by simp [step, hst₂, s₃]
    have hm₃ : roundsLeft children n s₃ + 1 = roundsLeft children n s₂ := by
      simp [roundsLeft, hst₂, s₃, add_assoc]
    have hc₂ : s.clock + 1 ≤ s₂.clock := hw₂.clock_le
    have hbD : ¬ ∃ c ∈ (children b).reverse, Desc children c b := by
      rintro ⟨c, hc, hd⟩
      exact hbelow c (List.mem_reverse.mp hc) b hd rfl
    have htin : s₃.tin b = some s.clock := by
      simp only [s₃, (hw₂.frame b hbD).1, s₁, Function.update_self]
    have hlo : lo s₃ b = s.clock := by simp [lo, htin]
    have hhi : hi openAt s₃ b = s₂.clock := by
      simp [hi, s₃, hopen s₂.clock (by omega)]
    have hlaid : Laid children openAt s₃ (fun d => ∃ c ∈ (children b).reverse, Desc children c d)
        (s.clock + 1) s₂.clock := by
      refine hw₂.laid.congr fun d hd => ⟨rfl, ?_⟩
      obtain ⟨c, hc, hcd⟩ := hd
      simp [s₃, Function.update_of_ne (hbelow c (List.mem_reverse.mp hc) d hcd)]
    have hsplit : ∀ d, Desc children b d ↔
        d = b ∨ ∃ c ∈ (children b).reverse, Desc children c d := by
      intro d
      constructor
      · intro hd
        simpa using hd.head
      · rintro (rfl | ⟨c, hc, hd⟩)
        · exact .refl
        · exact (Desc.down .refl (List.mem_reverse.mp hc)).trans hd
    refine ⟨1 + k + 1, s₃, ((Rounds.one hstep₁).trans hr₂).trans (Rounds.one hstep₃), rfl,
      by omega, ?_, ?_, ?_⟩
    · show s.clock ≤ s₂.clock
      omega
    · show Laid children openAt s₃ (Desc children b) s.clock s₂.clock
      intro d hd
      rcases (hsplit d).mp hd with rfl | hd'
      · rw [hlo, hhi]
        refine ⟨by simp [htin], le_rfl, by omega, le_rfl, fun e he => ⟨fun _ => ?_, fun hno =>
          absurd he hno⟩⟩
        rcases (hsplit e).mp he with rfl | he'
        · rw [hlo, hhi]
          exact ⟨le_rfl, le_rfl⟩
        · obtain ⟨-, g2, -, g4, -⟩ := hlaid e he'
          exact ⟨by omega, g4⟩
      · obtain ⟨h1, h2, h3, h4, h5⟩ := hlaid d hd'
        refine ⟨h1, by omega, h3, h4, fun e he => ?_⟩
        rcases (hsplit e).mp he with rfl | he'
        · obtain ⟨c, hc, hcd⟩ := hd'
          refine ⟨fun hde => absurd hde
            (hf.not_desc_of_child (List.mem_reverse.mp hc) hcd), fun _ => Or.inl ?_⟩
          rw [hlo]
          omega
        · exact h5 e he'
    · intro d hd
      have hdb : d ≠ b := fun h => hd (h ▸ .refl)
      have hdD : ¬ ∃ c ∈ (children b).reverse, Desc children c d := fun h =>
        hd ((hsplit d).mpr (Or.inr h))
      obtain ⟨h1, h2⟩ := hw₂.frame d hdD
      refine ⟨?_, ?_⟩
      · show s₂.tin d = s.tin d
        rw [h1]
        simp [s₁, hdb]
      · show Function.update s₂.tout b _ d = s.tout d
        rw [Function.update_of_ne hdb, h2]

end Walk

end Badc.TreeStamps
