import Mathlib.Data.Finset.Card
import Mathlib.Data.Finset.Range
import Mathlib.Data.List.Nodup
import Mathlib.Logic.Function.Basic

/-!
# Chains of blocks that only jump on

`JumpChains` of `src/c5/codegen/passes/layout.rs`: for each block the end of the chain it starts
under `hop`, and the block before that end.  `NO_BLOCK` is `none`, the buffers are functions, and
the step counter is left out.

`buildWith_spec` says that the ends found are those of the chains, and that a block has none
exactly when its chain runs into a cycle.
-/

namespace Badc

/-- Per block: not visited, on the current path, resolved. -/
inductive ChainMark
  | unvisited
  | onPath
  | resolved
  deriving DecidableEq

/-- The chain end of each block and the block that precedes it. -/
structure JumpChains where
  chainEnd : ℕ → Option ℕ := fun _ => none
  penultimate : ℕ → Option ℕ := fun _ => none
  state : ℕ → ChainMark := fun _ => .unvisited

namespace JumpChains

variable (hop : ℕ → Option ℕ)

/-- Mark a block. -/
def mark (c : JumpChains) (b : ℕ) (x : ChainMark) : JumpChains :=
  { c with state := Function.update c.state b x }

/-- Enter the end of the chain of a block. -/
def assign (c : JumpChains) (b : ℕ) (e p : Option ℕ) : JumpChains :=
  { c with
    chainEnd := Function.update c.chainEnd b e
    penultimate := Function.update c.penultimate b p }

/-- Walk until the chain reaches a resolved block, a block that ends a chain, or the path itself;
the path is listed from its last block, and the block found is absent on a jump cycle. -/
def walkPath : ℕ → JumpChains → ℕ → List ℕ → JumpChains × List ℕ × Option ℕ
  | 0, c, _, path => (c, path, none)
  | fuel + 1, c, cur, path =>
    match c.state cur with
    | .resolved => (c, path, some cur)
    | .onPath => (c, path, none)
    | .unvisited =>
      match hop cur with
      | some t => walkPath fuel (c.mark cur .onPath) t (cur :: path)
      | none => ((c.assign cur (some cur) (some cur)).mark cur .resolved, path, some cur)

/-- Unwind the path, each block taking the end of the block it hops to. -/
def unwind (terminates : Bool) : List ℕ → JumpChains → JumpChains
  | [], c => c
  | b :: path, c =>
    let c := c.mark b .resolved
    if terminates then
      match hop b with
      | some t => unwind terminates path
          (c.assign b (c.chainEnd t) (if c.chainEnd t = some t then some b else c.penultimate t))
      | none => unwind terminates path c
    else unwind terminates path c

/-- Resolve the chain from one block. -/
def resolve (n : ℕ) (c : JumpChains) (start : ℕ) : JumpChains :=
  if c.state start = .unvisited then
    let (c, path, tail) := walkPath hop (n + 1) c start []
    unwind hop (tail.any fun t => (c.chainEnd t).isSome) path c
  else c

/-- Resolve the chains of `n` blocks under `hop`. -/
def buildWith (n : ℕ) : JumpChains := (List.range n).foldl (resolve hop n) {}

end JumpChains

/-! ## Chains -/

/-- `Chain hop k b p e`: from `b`, `k` hops lead to `e`, which ends the chain; `p` is the block
before `e`, and `b` itself when there is no hop. -/
inductive Chain (hop : ℕ → Option ℕ) : ℕ → ℕ → ℕ → ℕ → Prop
  | done {b : ℕ} : hop b = none → Chain hop 0 b b b
  | last {b e : ℕ} : hop b = some e → hop e = none → Chain hop 1 b b e
  | more {k b t p e : ℕ} : hop b = some t → Chain hop (k + 1) t p e → Chain hop (k + 2) b p e

section

variable {hop : ℕ → Option ℕ}

lemma Chain.hop_end {k b p e : ℕ} (h : Chain hop k b p e) : hop e = none := by
  induction h with
  | done hb => exact hb
  | last _ he => exact he
  | more _ _ ih => exact ih

/-- A chain is determined by its start. -/
lemma Chain.unique {k k' b p p' e e' : ℕ} (h : Chain hop k b p e) (h' : Chain hop k' b p' e') :
    k = k' ∧ p = p' ∧ e = e' := by
  induction h generalizing k' p' e' with
  | done hb =>
    cases h' with
    | done _ => exact ⟨rfl, rfl, rfl⟩
    | last hb' _ => simp [hb] at hb'
    | more hb' _ => simp [hb] at hb'
  | last hb he =>
    cases h' with
    | done hb' => simp [hb] at hb'
    | last hb' _ =>
      rw [hb, Option.some.injEq] at hb'
      exact ⟨rfl, rfl, hb'⟩
    | more hb' h' =>
      rw [hb, Option.some.injEq] at hb'
      subst hb'
      cases h' with
      | last ht _ => simp [he] at ht
      | more ht _ => simp [he] at ht
  | more hb h ih =>
    cases h' with
    | done hb' => simp [hb] at hb'
    | last hb' he' =>
      rw [hb, Option.some.injEq] at hb'
      subst hb'
      cases h with
      | last ht _ => simp [he'] at ht
      | more ht _ => simp [he'] at ht
    | more hb' h' =>
      rw [hb, Option.some.injEq] at hb'
      subst hb'
      obtain ⟨hk, hp, he⟩ := ih h'
      exact ⟨by omega, hp, he⟩

/-- The chain of a block continues with that of the block it hops to. -/
lemma Chain.tail {k b t p e : ℕ} (h : Chain hop k b p e) (hb : hop b = some t) :
    ∃ k' p', k = k' + 1 ∧ Chain hop k' t p' e := by
  cases h with
  | done hb' => simp [hb] at hb'
  | last hb' he =>
    rw [hb, Option.some.injEq] at hb'
    subst hb'
    exact ⟨0, t, rfl, .done he⟩
  | more hb' h =>
    rw [hb, Option.some.injEq] at hb'
    subst hb'
    exact ⟨_, p, rfl, h⟩

/-- A block in front of a chain. -/
lemma Chain.cons {k b t p e : ℕ} (hb : hop b = some t) (h : Chain hop k t p e) :
    Chain hop (k + 1) b (if e = t then b else p) e := by
  cases h with
  | done ht =>
    rw [if_pos rfl]
    exact .last hb ht
  | last ht he =>
    have hne : e ≠ t := by
      rintro rfl
      simp [he] at ht
    rw [if_neg hne]
    exact .more hb (.last ht he)
  | more ht h =>
    have hne : e ≠ t := by
      rintro rfl
      simp [h.hop_end] at ht
    rw [if_neg hne]
    exact .more hb (.more ht h)

/-- Whether the chain of a block ends. -/
def HasEnd (hop : ℕ → Option ℕ) (b : ℕ) : Prop := ∃ k p e, Chain hop k b p e

lemma hasEnd_iff_of_hop {b t : ℕ} (hb : hop b = some t) : HasEnd hop b ↔ HasEnd hop t := by
  constructor
  · rintro ⟨k, p, e, h⟩
    obtain ⟨k', p', -, h'⟩ := h.tail hb
    exact ⟨k', p', e, h'⟩
  · rintro ⟨k, p, e, h⟩
    exact ⟨_, _, e, h.cons hb⟩

/-- `Path hop path t`: each listed block hops to the one before it, the first to `t`. -/
def Path (hop : ℕ → Option ℕ) : List ℕ → ℕ → Prop
  | [], _ => True
  | b :: path, t => hop b = some t ∧ Path hop path b

/-- Along a path, chains get shorter. -/
lemma Path.chain_lt {path : List ℕ} {t : ℕ} (h : Path hop path t) {b k p e : ℕ} (hb : b ∈ path)
    (hc : Chain hop k b p e) : ∃ k' p', k' < k ∧ Chain hop k' t p' e := by
  induction path generalizing t with
  | nil => simp at hb
  | cons c path ih =>
    rcases List.mem_cons.mp hb with rfl | hb
    · obtain ⟨k', p', rfl, hc'⟩ := hc.tail h.1
      exact ⟨k', p', by omega, hc'⟩
    · obtain ⟨k', p', hlt, hc'⟩ := ih h.2 hb
      obtain ⟨k'', p'', rfl, hc''⟩ := hc'.tail h.1
      exact ⟨k'', p'', by omega, hc''⟩

lemma Path.not_hasEnd {path : List ℕ} {t : ℕ} (h : Path hop path t) (ht : t ∈ path) :
    ¬ HasEnd hop t := by
  rintro ⟨k, p, e, hc⟩
  obtain ⟨k', p', hlt, hc'⟩ := h.chain_lt ht hc
  have := (hc.unique hc').1
  omega

end

namespace JumpChains

variable {hop : ℕ → Option ℕ} {c : JumpChains}

/-- What is entered for a block is the end of its chain and the block before it, or nothing when
the chain has no end. -/
def RightAt (hop : ℕ → Option ℕ) (c : JumpChains) (b : ℕ) : Prop :=
  (∃ k p e, Chain hop k b p e ∧ c.chainEnd b = some e ∧ c.penultimate b = some p) ∨
    (¬ HasEnd hop b ∧ c.chainEnd b = none)

lemma RightAt.isSome_iff {b : ℕ} (h : RightAt hop c b) : (c.chainEnd b).isSome ↔ HasEnd hop b := by
  rcases h with ⟨k, p, e, hc, he, -⟩ | ⟨hno, he⟩
  · simp only [he, Option.isSome_some, true_iff]
    exact ⟨k, p, e, hc⟩
  · simp [he, hno]

/-- What the construction keeps, with the current path. -/
structure Inv (hop : ℕ → Option ℕ) (c : JumpChains) (path : List ℕ) : Prop where
  right : ∀ b, c.state b = .resolved → RightAt hop c b
  empty : ∀ b, c.state b ≠ .resolved → c.chainEnd b = none
  onPath : ∀ b, c.state b = .onPath ↔ b ∈ path

/-- Putting a block on the path. -/
lemma Inv.push {path : List ℕ} (h : Inv hop c path) {cur : ℕ} (hcur : c.state cur = .unvisited) :
    Inv hop (c.mark cur .onPath) (cur :: path) where
  right b hb := by
    by_cases hbc : b = cur
    · simp [mark, hbc] at hb
    · exact h.right b (by simpa [mark, hbc] using hb)
  empty b hb := by
    by_cases hbc : b = cur
    · exact h.empty b (by simp [hbc, hcur])
    · exact h.empty b (by simpa [mark, hbc] using hb)
  onPath b := by
    by_cases hbc : b = cur
    · simp [mark, hbc]
    · simpa [mark, hbc] using h.onPath b

/-- Entering the right end for a block and marking it resolved keeps what is right elsewhere. -/
lemma Inv.settle {path : List ℕ} (h : Inv hop c path) {b : ℕ} {e p : Option ℕ}
    (hb : RightAt hop ((c.assign b e p).mark b .resolved) b) :
    Inv hop ((c.assign b e p).mark b .resolved) (path.filter (· ≠ b)) where
  right x hx := by
    by_cases hxb : x = b
    · exact hxb ▸ hb
    · have := h.right x (by simpa [mark, assign, hxb] using hx)
      simpa [RightAt, mark, assign, hxb] using this
  empty x hx := by
    have hxb : x ≠ b := by
      rintro rfl
      simp [mark, assign] at hx
    have := h.empty x (by simpa [mark, assign, hxb] using hx)
    simpa [mark, assign, hxb] using this
  onPath x := by
    by_cases hxb : x = b
    · simp [mark, assign, hxb]
    · simpa [mark, assign, hxb] using h.onPath x

/-- Unwinding a path resolves its blocks and keeps what is resolved. -/
lemma Inv.unwind {path : List ℕ} {t : ℕ} {terminates : Bool} (h : Inv hop c path)
    (hnd : path.Nodup) (hp : Path hop path t)
    (hyes : terminates = true → RightAt hop c t ∧ HasEnd hop t)
    (hno : terminates = false → ¬ HasEnd hop t) :
    Inv hop (unwind hop terminates path c) [] ∧
      ∀ b, b ∈ path ∨ c.state b = .resolved →
        (unwind hop terminates path c).state b = .resolved := by
  induction path generalizing c t with
  | nil => exact ⟨h, fun b hb => by simpa [JumpChains.unwind] using hb⟩
  | cons b path ih =>
    obtain ⟨hbt, hpath⟩ := hp
    obtain ⟨hb, hnd⟩ := List.nodup_cons.mp hnd
    have hfilter : (b :: path).filter (· ≠ b) = path := by
      rw [List.filter_cons_of_neg (by simp)]
      exact List.filter_eq_self.mpr fun x hx => decide_eq_true fun hxb => hb (hxb ▸ hx)
    have hiff := hasEnd_iff_of_hop hbt
    -- One round enters the end of `b`, which the next one reads.
    have hround : ∃ e p, JumpChains.unwind hop terminates (b :: path) c =
          JumpChains.unwind hop terminates path ((c.assign b e p).mark b .resolved) ∧
        RightAt hop ((c.assign b e p).mark b .resolved) b := by
      cases terminates with
      | true =>
        obtain ⟨hright, hend⟩ := hyes rfl
        rcases hright with ⟨k, p, e, hc, he, hpen⟩ | ⟨hnone, -⟩
        · refine ⟨_, _, by simp only [JumpChains.unwind, hbt, if_true]; rfl,
            Or.inl ⟨_, _, e, hc.cons hbt, ?_, ?_⟩⟩
          · simp [mark, assign, he]
          · simp only [mark, assign, he, hpen, Function.update_self, Option.some.injEq]
            split <;> rfl
        · exact absurd hend hnone
      | false =>
        refine ⟨c.chainEnd b, c.penultimate b, ?_, Or.inr ⟨fun hb => hno rfl (hiff.mp hb), ?_⟩⟩
        · simp [JumpChains.unwind, assign]
        · have hon : c.state b = .onPath := (h.onPath b).mpr (by simp)
          simpa [mark, assign] using h.empty b (by simp [hon])
    obtain ⟨e, p, heq, hright⟩ := hround
    have hinv := h.settle hright
    rw [hfilter] at hinv
    obtain ⟨hi, hres⟩ := ih hinv hnd hpath
      (fun ht => ⟨hright, hiff.mpr (hyes ht).2⟩) (fun ht hb => hno ht (hiff.mp hb))
    rw [heq]
    refine ⟨hi, fun x hx => ?_⟩
    by_cases hxb : x = b
    · exact hres x (Or.inr (by simp [mark, hxb]))
    · refine hres x ?_
      rw [List.mem_cons, or_iff_right hxb] at hx
      exact hx.imp id fun hx => by simpa [mark, assign, hxb] using hx

/-- The walk from a block ends at a resolved block, or runs into its own path. -/
lemma Inv.walkPath {n fuel cur : ℕ} {path : List ℕ} (hn : ∀ b < n, ∀ t, hop b = some t → t < n)
    (h : Inv hop c path) (hnd : path.Nodup) (hlt : ∀ b ∈ path, b < n) (hcur : cur < n)
    (hp : Path hop path cur) (hfuel : fuel + path.length = n + 1) :
    ∃ c' path' tail t, walkPath hop fuel c cur path = (c', path', tail) ∧ Inv hop c' path' ∧
      path'.Nodup ∧ Path hop path' t ∧
      (tail = some t ∧ c'.state t = .resolved ∨ tail = none ∧ ¬ HasEnd hop t) ∧
      (∀ b, c.state b = .resolved → c'.state b = .resolved) ∧
      ∀ b ∈ cur :: path, b ∈ path' ∨ c'.state b = .resolved := by
  induction fuel generalizing c cur path with
  | zero =>
    have hsub : path.toFinset ⊆ Finset.range n := fun b hb => by simpa using hlt b (by simpa using hb)
    have := Finset.card_le_card hsub
    rw [List.toFinset_card_of_nodup hnd, Finset.card_range] at this
    omega
  | succ fuel ih =>
    unfold JumpChains.walkPath
    cases hstate : c.state cur with
    | resolved =>
      refine ⟨c, path, some cur, cur, rfl, h, hnd, hp, Or.inl ⟨rfl, hstate⟩, fun _ => id, ?_⟩
      intro b hb
      rcases List.mem_cons.mp hb with rfl | hb
      · exact Or.inr hstate
      · exact Or.inl hb
    | onPath =>
      have hmem := (h.onPath cur).mp hstate
      refine ⟨c, path, none, cur, rfl, h, hnd, hp, Or.inr ⟨rfl, hp.not_hasEnd hmem⟩,
        fun _ => id, ?_⟩
      intro b hb
      rcases List.mem_cons.mp hb with rfl | hb
      · exact Or.inl hmem
      · exact Or.inl hb
    | unvisited =>
      have hnot : cur ∉ path := fun hmem => by
        have := (h.onPath cur).mpr hmem
        rw [hstate] at this
        cases this
      cases hhop : hop cur with
      | some t =>
        obtain ⟨c', path', tail, u, heq, hinv, hnd', hp', htail, hres, hkeep⟩ :=
          ih (h.push hstate) (List.nodup_cons.mpr ⟨hnot, hnd⟩)
            (List.forall_mem_cons.mpr ⟨hcur, hlt⟩) (hn cur hcur t hhop) ⟨hhop, hp⟩
            (by rw [List.length_cons]; omega)
        refine ⟨c', path', tail, u, heq, hinv, hnd', hp', htail, fun b hb => hres b ?_,
          fun b hb => hkeep b (.tail _ hb)⟩
        have hbc : b ≠ cur := by
          rintro rfl
          rw [hstate] at hb
          cases hb
        simpa [mark, hbc] using hb
      | none =>
        have hright : RightAt hop ((c.assign cur (some cur) (some cur)).mark cur .resolved) cur :=
          Or.inl ⟨0, cur, cur, .done hhop, by simp [mark, assign], by simp [mark, assign]⟩
        have hfilter : path.filter (· ≠ cur) = path :=
          List.filter_eq_self.mpr fun x hx => decide_eq_true fun hxc => hnot (hxc ▸ hx)
        have hinv := h.settle hright
        rw [hfilter] at hinv
        refine ⟨_, path, some cur, cur, rfl, hinv, hnd, hp, Or.inl ⟨rfl, by simp [mark]⟩, ?_, ?_⟩
        · intro b hb
          by_cases hbc : b = cur
          · simp [mark, hbc]
          · simpa [mark, assign, hbc] using hb
        · intro b hb
          rcases List.mem_cons.mp hb with rfl | hb
          · exact Or.inr (by simp [mark])
          · exact Or.inl hb

/-- Resolving the chain from one block. -/
lemma Inv.resolve {n start : ℕ} (hn : ∀ b < n, ∀ t, hop b = some t → t < n) (h : Inv hop c [])
    (hstart : start < n) :
    Inv hop (resolve hop n c start) [] ∧ (resolve hop n c start).state start = .resolved ∧
      ∀ b, c.state b = .resolved → (JumpChains.resolve hop n c start).state b = .resolved := by
  unfold JumpChains.resolve
  split
  · rename_i hun
    obtain ⟨c', path, tail, t, heq, hinv, hnd, hp, htail, hres, hkeep⟩ :=
      @Inv.walkPath hop c n (n + 1) start [] hn h List.nodup_nil (by simp) hstart trivial (by simp)
    simp only [heq]
    have hend : (tail.any fun t => (c'.chainEnd t).isSome) = true ↔ HasEnd hop t := by
      rcases htail with ⟨rfl, ht⟩ | ⟨rfl, ht⟩
      · simpa using (hinv.right t ht).isSome_iff
      · simpa using ht
    obtain ⟨hi, hall⟩ := hinv.unwind hnd hp
      (fun hyes => by
        refine ⟨?_, hend.mp hyes⟩
        rcases htail with ⟨-, ht⟩ | ⟨rfl, -⟩
        · exact hinv.right t ht
        · cases hyes)
      (fun hno hb => by
        rw [hend.mpr hb] at hno
        cases hno)
    exact ⟨hi, hall start (hkeep start (by simp)), fun b hb => hall b (Or.inr (hres b hb))⟩
  · rename_i hun
    refine ⟨h, ?_, fun _ => id⟩
    cases hstate : c.state start with
    | unvisited => exact absurd hstate hun
    | onPath => simpa using (h.onPath start).mp hstate
    | resolved => rfl

/-- The chains of `n` blocks: what is entered for each block is right. -/
theorem buildWith_spec {n : ℕ} (hn : ∀ b < n, ∀ t, hop b = some t → t < n) {b : ℕ} (hb : b < n) :
    RightAt hop (buildWith hop n) b := by
  suffices h : ∀ (l : List ℕ) (c : JumpChains), (∀ x ∈ l, x < n) → Inv hop c [] →
      Inv hop (l.foldl (resolve hop n) c) [] ∧
        ∀ x, x ∈ l ∨ c.state x = .resolved → (l.foldl (resolve hop n) c).state x = .resolved by
    have hinit : Inv hop {} [] := ⟨by simp, by simp, by simp⟩
    obtain ⟨hinv, hall⟩ := h (List.range n) {} (by simp) hinit
    exact hinv.right b (hall b (Or.inl (List.mem_range.mpr hb)))
  intro l
  induction l with
  | nil => exact fun c _ h => ⟨h, fun x hx => by simpa using hx⟩
  | cons x l ih =>
    intro c hlt h
    obtain ⟨hinv, hx, hres⟩ := h.resolve hn (hlt x (by simp))
    obtain ⟨hinv', hall⟩ := ih _ (fun y hy => hlt y (by simp [hy])) hinv
    refine ⟨hinv', fun y hy => hall y ?_⟩
    rcases hy with hy | hy
    · rcases List.mem_cons.mp hy with rfl | hy
      · exact Or.inr hx
      · exact Or.inl hy
    · exact Or.inr (hres y hy)

end JumpChains

end Badc
