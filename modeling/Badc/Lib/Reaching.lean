import Mathlib.Data.List.Basic
import Mathlib.Tactic.Common

/-!
# Reaching definitions

A variable of a directed graph that some edges define: an edge may carry a name.  The definition
that reaches the end of a path is the name the last such edge of the path carries, at the path up
to that edge (`lastDef`).  What reaches a node is named by a `Src`: a name carried, or `entry b`,
whatever reaches `b`.

Construction of static-single-assignment form merges names.  A node all of whose incoming edges
have one name, its own aside, is given that name; `Faithful res` says that the names a merging
`res` gives are right on every path, and one more merge keeps that (`Faithful.merge`).

A name carried has a value at the end of each path, and a path gives it a new one only where it
passes the place of the name.  A reader that keeps at each node that is not merged the value its
incoming edge brings then reads, on every path, the value the last definition had (`Faithful.reads`):
where it reads a carried name itself, the path has not passed the place of the name since.

Paths are lists of nodes, the last node first.
-/

namespace Badc

/-- A value, or the one that reaches a node. -/
inductive Src (ν α : Type*)
  | val (v : ν)
  | entry (b : α)
  deriving DecidableEq

namespace Reaching

variable {α ν : Type*}

/-- A path of `E` from `start`, its last node first. -/
inductive PathFrom (E : α → α → Prop) (start : α) : List α → Prop
  | start : PathFrom E start [start]
  | step {a b : α} {π : List α} : PathFrom E start (a :: π) → E a b → PathFrom E start (b :: a :: π)

/-- What the last edge of a path that carries a name carries, and the path up to that edge. -/
def lastDef (carries : α → α → Option ν) : List α → Option (ν × List α)
  | b :: a :: π => ((carries a b).map fun v => (v, a :: π)).or (lastDef carries (a :: π))
  | _ => none

section

-- The equations are made here, once for all the lemmas that unfold these.
attribute [local simp] lastDef

end

/-- The value of the last definition of a path, as it was when the path took that edge. -/
def lastValue {ω : Type*} (carries : α → α → Option ν) (val : List α → ν → ω) (π : List α) :
    Option ω :=
  (lastDef carries π).map fun x => val x.2 x.1

/-- The name of what an edge brings to the node it enters. -/
def edgeSrc (carries : α → α → Option ν) (a b : α) : Src ν α :=
  match carries a b with
  | some v => .val v
  | none => .entry a

/-- What a path passes last it passed before. -/
lemma PathFrom.of_append {E : α → α → Prop} {start b : α} {π ρ : List α}
    (h : PathFrom E start (ρ ++ b :: π)) : PathFrom E start (b :: π) := by
  induction ρ with
  | nil => exact h
  | cons a ρ ih =>
    refine ih ?_
    rw [List.cons_append] at h
    cases hrest : ρ ++ b :: π with
    | nil => simp at hrest
    | cons c rest =>
      rw [hrest] at h
      cases h with
      | step h _ => exact h

variable [DecidableEq α]

/-- A name is right for the end of a path: it is the value itself, or the node where the path last
had it, from which on the nodes passed all resolve to that node. -/
def Gives (carries : α → α → Option ν) (res : Src ν α → Src ν α) (π : List α)
    (x : ν × List α) : Src ν α → Prop
  | .val v => v = x.1
  | .entry e => lastDef carries (π.dropWhile (· ≠ e)) = some x ∧
      ∀ c ∈ π.takeWhile (· ≠ e), res (.entry c) = .entry e

/-- The names `res` resolves to are right on every path from the start. -/
def Faithful (E : α → α → Prop) (start : α) (carries : α → α → Option ν)
    (res : Src ν α → Src ν α) : Prop :=
  ∀ b π x, PathFrom E start (b :: π) → lastDef carries (b :: π) = some x →
    Gives carries res (b :: π) x (res (.entry b))

/-- One more node merged: `b` resolves to `s`. -/
def merge [DecidableEq ν] (res : Src ν α → Src ν α) (b : α) (s t : Src ν α) : Src ν α :=
  if res t = .entry b then s else res t

section

variable {E : α → α → Prop} {start a b c e : α} {carries : α → α → Option ν}
  {res : Src ν α → Src ν α} {π ρ : List α} {x : ν × List α} {s : Src ν α}

/-- A path with a definition that reaches its last visit to a node went through the node. -/
lemma exists_of_lastDef_dropWhile (h : lastDef carries (π.dropWhile (· ≠ e)) = some x) :
    ∃ ρ, π = π.takeWhile (· ≠ e) ++ e :: ρ ∧ π.dropWhile (· ≠ e) = e :: ρ := by
  cases hdrop : π.dropWhile (· ≠ e) with
  | nil =>
    rw [hdrop] at h
    cases h
  | cons c ρ =>
    have hc : c = e := by
      have hne : π.dropWhile (fun c => decide (c ≠ e)) ≠ [] := by
        rw [hdrop]
        exact List.cons_ne_nil c ρ
      have hhead := List.head_dropWhile_not (fun c => decide (c ≠ e)) hne
      simp only [hdrop, List.head_cons, decide_eq_false_iff_not, not_not] at hhead
      exact hhead
    subst hc
    refine ⟨ρ, ?_, rfl⟩
    rw [← hdrop, List.takeWhile_append_dropWhile]

lemma faithful_id : Faithful E start carries id := by
  intro b π x _ hdef
  have hdrop : (b :: π).dropWhile (fun c => decide (c ≠ b)) = b :: π := by simp
  have htake : (b :: π).takeWhile (fun c => decide (c ≠ b)) = [] := by simp
  exact ⟨by rwa [hdrop], by rw [htake]; simp⟩

/-- A name right for a path is right for a longer one that only passes nodes of that name. -/
lemma Gives.append (h : Gives carries res ρ x s) (hres : ∀ c ∈ π, res (.entry c) = s)
    (hnot : ∀ c ∈ π, s ≠ .entry c) : Gives carries res (π ++ ρ) x s := by
  cases s with
  | val v => exact h
  | entry e =>
    have hne : ∀ c ∈ π, decide (c ≠ e) = true := by
      intro c hc
      refine decide_eq_true fun hce => hnot c hc ?_
      rw [hce]
    refine ⟨?_, ?_⟩
    · rw [List.dropWhile_append_of_pos hne]
      exact h.1
    · rw [List.takeWhile_append_of_pos hne]
      intro c hc
      rcases List.mem_append.mp hc with hc | hc
      · exact hres c hc
      · exact h.2 c hc

variable [DecidableEq ν]

lemma Gives.merge (h : Gives carries res π x s) (hs : s ≠ .entry b) {t : Src ν α} :
    Gives carries (merge res b t) π x s := by
  cases s with
  | val v => exact h
  | entry e =>
    refine ⟨h.1, fun c hc => ?_⟩
    rw [Reaching.merge, h.2 c hc, if_neg hs]

/-- The name a node is merged into is right wherever a path enters the node. -/
lemma Faithful.merged (h : Faithful E start carries res) (hval : ∀ v, res (.val v) = .val v)
    (hb : res (.entry b) = .entry b) (hs : res s = s) (hne : s ≠ .entry b)
    (hone : ∀ q, E q b → res (edgeSrc carries q b) = s ∨ res (edgeSrc carries q b) = .entry b)
    (hpath : PathFrom E start (b :: π)) (hdef : lastDef carries (b :: π) = some x) :
    Gives carries (merge res b s) (b :: π) x s := by
  -- The nodes that resolve to `b` are not the one `s` names.
  have hother : ∀ {c}, res (.entry c) = .entry b → s ≠ .entry c := by
    rintro c hc rfl
    exact hne (hs.symm.trans hc)
  have hself : ∀ {c}, res (.entry c) = .entry b → merge res b s (.entry c) = s := fun hc => if_pos hc
  -- Going back from `b`: the edge carries the value, brings it under the name `s`, or brings what
  -- `b` had before.
  induction hn : π.length using Nat.strongRecOn generalizing π with
  | ind n ih =>
    cases hpath with
    | start => cases hdef
    | @step a _ π hpath hab =>
      have hlast := hone a hab
      rw [lastDef] at hdef
      unfold edgeSrc at hlast
      cases hcarry : carries a b with
      | some v =>
        rw [hcarry] at hdef hlast
        simp only [hval, reduceCtorEq, or_false] at hlast
        subst hlast
        simp only [Option.map_some, Option.some_or, Option.some.injEq] at hdef
        rw [← hdef]
        rfl
      | none =>
        rw [hcarry] at hdef hlast
        dsimp only [Option.map_none, Option.none_or] at hdef hlast
        have hgives := h a π x hpath hdef
        have hpass : ∀ c ∈ [b], merge res b s (.entry c) = s ∧ s ≠ .entry c := by
          intro c hc
          rw [List.mem_singleton.mp hc]
          exact ⟨hself hb, hother hb⟩
        rcases hlast with hlast | hlast
        · rw [hlast] at hgives
          exact (hgives.merge hne).append (fun c hc => (hpass c hc).1) fun c hc => (hpass c hc).2
        · rw [hlast] at hgives
          obtain ⟨hdef', hvia⟩ := hgives
          obtain ⟨ρ, hsplit, hdrop⟩ := exists_of_lastDef_dropWhile hdef'
          rw [hdrop] at hdef'
          have hpath' : PathFrom E start (b :: ρ) := by
            rw [hsplit] at hpath
            exact hpath.of_append
          have hlen : ρ.length < n := by
            have := congrArg List.length hsplit
            rw [List.length_append, List.length_cons, List.length_cons] at this
            rw [← hn, List.length_cons]
            omega
          have hprev := ih ρ.length hlen hpath' hdef' rfl
          rw [hsplit, ← List.cons_append]
          refine hprev.append (fun c hc => ?_) fun c hc => ?_
          · rcases List.mem_cons.mp hc with rfl | hc
            · exact hself hb
            · exact hself (hvia c hc)
          · rcases List.mem_cons.mp hc with rfl | hc
            · exact hother hb
            · exact hother (hvia c hc)

/-- **One more merge is faithful**: a node not merged yet takes the one name of its incoming edges,
its own aside. -/
theorem Faithful.merge (h : Faithful E start carries res) (hval : ∀ v, res (.val v) = .val v)
    (hb : res (.entry b) = .entry b) (hs : res s = s) (hne : s ≠ .entry b)
    (hone : ∀ q, E q b → res (edgeSrc carries q b) = s ∨ res (edgeSrc carries q b) = .entry b) :
    Faithful E start carries (merge res b s) := by
  intro c π x hpath hdef
  have hgives := h c π x hpath hdef
  by_cases hc : res (.entry c) = .entry b
  · rw [Reaching.merge, if_pos hc]
    rw [hc] at hgives
    obtain ⟨hdef', hvia⟩ := hgives
    obtain ⟨ρ, hsplit, hdrop⟩ := exists_of_lastDef_dropWhile hdef'
    rw [hdrop] at hdef'
    rw [hsplit] at hpath ⊢
    refine (h.merged hval hb hs hne hone hpath.of_append hdef').append (fun d hd => ?_) fun d hd => ?_
    · exact if_pos (hvia d hd)
    · rintro rfl
      exact hne (hs.symm.trans (hvia d hd))
  · rw [Reaching.merge, if_neg hc]
    exact hgives.merge hc

end

/-! ## Reading through a merging -/

/-- The nodes a path has passed since its last edge that carries a name. -/
def since (carries : α → α → Option ν) : List α → List α
  | b :: a :: π => b :: if (carries a b).isSome then [] else since carries (a :: π)
  | π => π

section

-- The equations are made here, once for all the lemmas that unfold these.
attribute [local simp] since

end

section

omit [DecidableEq α]

variable {E : α → α → Prop} {start b d : α} {carries : α → α → Option ν} {π σ τ : List α}
  {x : ν × List α}

/-- Two paths that meet make another. -/
lemma PathFrom.splice (h : PathFrom E start (π ++ d :: σ)) (hd : PathFrom E start (d :: τ)) :
    PathFrom E start (π ++ d :: τ) := by
  induction π with
  | nil => exact hd
  | cons b π ih =>
    cases π with
    | nil =>
      cases h with
      | step _ hE => exact .step hd hE
    | cons a π =>
      cases h with
      | step h hE => exact .step (ih h) hE

/-- A path that passes a node passes it a first time. -/
lemma PathFrom.exists_first (h : PathFrom E start π) (hd : d ∈ π) :
    ∃ τ, PathFrom E start (d :: τ) ∧ d ∉ τ := by
  induction h with
  | start =>
    obtain rfl := List.mem_singleton.mp hd
    exact ⟨[], .start, by simp⟩
  | @step a b π h hE ih =>
    by_cases hmem : d ∈ a :: π
    · exact ih hmem
    · obtain rfl := (List.mem_cons.mp hd).resolve_right hmem
      exact ⟨a :: π, .step h hE, hmem⟩

/-- Where the last definition of a path is. -/
lemma PathFrom.of_lastDef (h : PathFrom E start (b :: π)) (hx : lastDef carries (b :: π) = some x) :
    ∃ a s τ, x.2 = a :: τ ∧ PathFrom E start (a :: τ) ∧ E a s ∧ carries a s = some x.1 ∧
      a :: τ ⊆ π := by
  induction π generalizing b with
  | nil => cases hx
  | cons a π ih =>
    cases h with
    | step h hE =>
      rw [lastDef] at hx
      cases hcarry : carries a b with
      | some v =>
        rw [hcarry] at hx
        simp only [Option.map_some, Option.some_or, Option.some.injEq] at hx
        exact ⟨a, b, π, by rw [← hx], h, hE, by rw [hcarry, ← hx], List.Subset.refl _⟩
      | none =>
        rw [hcarry] at hx
        obtain ⟨c, s, τ, hτ, hpath, hEdge, hc, hsub⟩ := ih h hx
        exact ⟨c, s, τ, hτ, hpath, hEdge, hc, fun d hd => List.mem_cons_of_mem _ (hsub hd)⟩

/-- A node passed since the last definition: nothing the path took from there carries a name. -/
lemma exists_of_mem_since (hd : d ∈ since carries π) :
    ∃ ρ σ, π = ρ ++ d :: σ ∧ ∀ τ, lastDef carries (ρ ++ d :: τ) = lastDef carries (d :: τ) := by
  induction π with
  | nil => cases hd
  | cons b π ih =>
    cases π with
    | nil =>
      obtain rfl := List.mem_singleton.mp hd
      exact ⟨[], [], rfl, fun τ => rfl⟩
    | cons a π =>
      rw [since] at hd
      rcases List.mem_cons.mp hd with rfl | hd
      · exact ⟨[], a :: π, rfl, fun τ => rfl⟩
      · cases hcarry : carries a b with
        | some v =>
          rw [hcarry] at hd
          cases hd
        | none =>
          rw [hcarry] at hd
          obtain ⟨ρ, σ, hsplit, hquiet⟩ := ih hd
          refine ⟨b :: ρ, σ, by rw [hsplit]; rfl, fun τ => ?_⟩
          rw [← hquiet τ]
          cases ρ with
          | nil =>
            obtain ⟨rfl, -⟩ := List.cons.inj hsplit
            simp [lastDef, hcarry]
          | cons c ρ =>
            obtain ⟨rfl, -⟩ := List.cons.inj hsplit
            simp [lastDef, hcarry]

/-- A node passed since the last definition is the end of the path, or the path left it over an edge
that carries no name. -/
lemma PathFrom.leaves_of_mem_since (h : PathFrom E start (b :: π))
    (hd : d ∈ since carries (b :: π)) : d = b ∨ ∃ c, E d c ∧ carries d c = none := by
  induction π generalizing b with
  | nil => exact .inl (List.mem_singleton.mp hd)
  | cons a π ih =>
    cases h with
    | step h hE =>
      rw [since] at hd
      rcases List.mem_cons.mp hd with rfl | hd
      · exact .inl rfl
      · cases hcarry : carries a b with
        | some v =>
          rw [hcarry] at hd
          cases hd
        | none =>
          rw [hcarry] at hd
          rcases ih h hd with rfl | hleave
          · exact .inr ⟨b, hE, hcarry⟩
          · exact .inr hleave

/-- A name a path has not passed the place of keeps its value. -/
lemma val_eq_of_since {ω : Type*} {val : List α → ν → ω} {place : ν → α}
    (hframe : ∀ a b π v, b ≠ place v → val (b :: a :: π) v = val (a :: π) v)
    (hx : lastDef carries π = some x) (hnot : place x.1 ∉ since carries π) :
    val π x.1 = val x.2 x.1 := by
  induction π with
  | nil => cases hx
  | cons b π ih =>
    cases π with
    | nil => cases hx
    | cons a π =>
      rw [since, List.mem_cons, not_or] at hnot
      rw [hframe a b π x.1 (Ne.symm hnot.1)]
      rw [lastDef] at hx
      cases hcarry : carries a b with
      | some v =>
        rw [hcarry] at hx
        simp only [Option.map_some, Option.some_or, Option.some.injEq] at hx
        rw [← hx]
      | none =>
        rw [hcarry] at hx hnot
        exact ih hx hnot.2

end

section

variable {E : α → α → Prop} {start : α} {carries : α → α → Option ν} {res : Src ν α → Src ν α}

/-- What a reader needs of the nodes it may keep the value of: the start is none of them, an edge
into one carries a name or comes from one, and they are merged among themselves.  A name has one
place: one that every edge out of carries a name, and that is none of the nodes, or one that each
path passes before an edge that carries the name. -/
structure Readable (E : α → α → Prop) (start : α) (carries : α → α → Option ν)
    (res : Src ν α → Src ν α) (N : α → Prop) (place : ν → α) : Prop where
  faithful : Faithful E start carries res
  value : ∀ v, res (.val v) = .val v
  notStart : ¬ N start
  closed : ∀ a b, E a b → N b → carries a b = none → N a
  merged : ∀ a e, N a → res (.entry a) = .entry e → N e ∧ res (.entry e) = .entry e
  place : ∀ v, (¬ N (place v) ∧ ∀ c, E (place v) c → carries (place v) c ≠ none) ∨
    ∀ a b π, E a b → carries a b = some v → PathFrom E start (a :: π) → place v ∈ a :: π

variable {N : α → Prop} {place : ν → α} {b : α} {π : List α} {x : ν × List α}
  (h : Readable E start carries res N place)
include h

/-- Every path to such a node has a definition. -/
lemma Readable.defined (hpath : PathFrom E start (b :: π)) (hb : N b) :
    ∃ x, lastDef carries (b :: π) = some x := by
  induction π generalizing b with
  | nil =>
    cases hpath
    exact absurd hb h.notStart
  | cons a π ih =>
    cases hpath with
    | step hpath hE =>
      rw [lastDef]
      cases hcarry : carries a b with
      | some v => exact ⟨_, rfl⟩
      | none => exact ih hpath (h.closed a b hE hb hcarry)

/-- Where a node is named by a name carried, no path to it has passed the place of that name since
the definition. -/
lemma Readable.notMem_since (hpath : PathFrom E start (b :: π)) (hb : N b)
    (hres : res (.entry b) = .val x.1) :
    place x.1 ∉ since carries (b :: π) := by
  intro hmem
  rcases h.place x.1 with ⟨hnot, hleave⟩ | hbefore
  · rcases hpath.leaves_of_mem_since hmem with heq | ⟨c, hE, hc⟩
    · exact hnot (heq ▸ hb)
    · exact hleave c hE hc
  · -- Take the path up to there another way, which passes the place a first time.
    obtain ⟨ρ, σ, hsplit, hquiet⟩ := exists_of_mem_since hmem
    rw [hsplit] at hpath
    obtain ⟨τ, hτ, hfirst⟩ := hpath.of_append.exists_first (.head _)
    have hother := hpath.splice hτ
    have hhead : ∃ υ, ρ ++ place x.1 :: τ = b :: υ := by
      cases ρ with
      | nil => exact ⟨τ, by rw [(List.cons.inj hsplit).1]; rfl⟩
      | cons c ρ => exact ⟨_, by rw [(List.cons.inj hsplit).1]; rfl⟩
    obtain ⟨υ, hυ⟩ := hhead
    rw [hυ] at hother
    -- It has a definition, of the same name; but its edge comes behind the place.
    obtain ⟨y, hy⟩ := h.defined hother hb
    have hgives := h.faithful b υ y hother hy
    rw [hres] at hgives
    rw [← hυ, hquiet τ] at hy
    obtain ⟨a, s, υ', hυ', hpath', hE, hcarry, hsub⟩ := hτ.of_lastDef hy
    exact hfirst (hsub (hbefore a s υ' hE (by rw [hcarry, ← show x.1 = y.1 from hgives]) hpath'))

variable {ω : Type*} {val : List α → ν → ω} (read : List α → Src ν α → Option ω)

/-- **A reader of a faithful merging reads the value of the last definition.**  It reads a name
carried as that name, and keeps at a node that is not merged the value the edge the path last
entered the node by brings. -/
theorem Readable.reads
    (hframe : ∀ a b π v, b ≠ place v → val (b :: a :: π) v = val (a :: π) v)
    (hread : ∀ π v, read π (.val v) = some (val π v))
    (henter : ∀ a b π, E a b → N b → res (.entry b) = .entry b →
      read (b :: a :: π) (.entry b) = read (a :: π) (res (edgeSrc carries a b)))
    (hkeep : ∀ a b e π, N e → res (.entry e) = .entry e → e ≠ b →
      read (b :: a :: π) (.entry e) = read (a :: π) (.entry e))
    (hpath : PathFrom E start (b :: π)) (hb : N b) :
    ∃ y, lastValue carries val (b :: π) = some y ∧
      read (b :: π) (res (.entry b)) = some y := by
  -- Where a node is named by a name carried, the value is still that of the definition.
  have hname : ∀ a π v y, PathFrom E start (a :: π) → N a → res (.entry a) = .val v →
      lastDef carries (a :: π) = some y → read (a :: π) (.val v) = some (val y.2 y.1) := by
    intro a π v y hpath ha hres hy
    have hgives := h.faithful a π y hpath hy
    rw [hres] at hgives
    obtain rfl : v = y.1 := hgives
    rw [hread, val_eq_of_since hframe hy (h.notMem_since hpath ha hres)]
  -- A node that is kept has the value of the definition that reached it last.
  have hnode : ∀ (π : List α) e y, PathFrom E start π → N e → res (.entry e) = .entry e →
      lastDef carries (π.dropWhile (· ≠ e)) = some y →
      read π (.entry e) = some (val y.2 y.1) := by
    intro π
    induction π with
    | nil => intro e y _ _ _ hy; cases hy
    | cons c π ih =>
      intro e y hpath he hself hy
      cases hpath with
      | start =>
        by_cases hce : start = e
        · rw [List.dropWhile_cons_of_neg (by simpa using hce)] at hy
          cases hy
        · rw [List.dropWhile_cons_of_pos (by simpa using hce)] at hy
          cases hy
      | @step a _ π hpath hac =>
        by_cases hce : c = e
        · subst hce
          rw [List.dropWhile_cons_of_neg (by simp), lastDef] at hy
          rw [henter a c π hac he hself]
          unfold edgeSrc
          cases hcarry : carries a c with
          | some v =>
            rw [hcarry] at hy
            simp only [Option.map_some, Option.some_or, Option.some.injEq] at hy
            rw [h.value, hread, ← hy]
          | none =>
            rw [hcarry] at hy
            have ha := h.closed a c hac he hcarry
            cases hres : res (.entry a) with
            | val v => exact hname a π v y hpath ha hres hy
            | entry d =>
              have hgives := h.faithful a π y hpath hy
              rw [hres] at hgives
              obtain ⟨hd, hdself⟩ := h.merged a d ha hres
              exact ih d y hpath hd hdself hgives.1
        · rw [List.dropWhile_cons_of_pos (by simpa using hce)] at hy
          rw [hkeep a c e π he hself (Ne.symm hce)]
          exact ih e y hpath he hself hy
  obtain ⟨x, hx⟩ := h.defined hpath hb
  refine ⟨val x.2 x.1, by rw [lastValue, hx]; rfl, ?_⟩
  cases hres : res (.entry b) with
  | val v => exact hname b π v x hpath hb hres hx
  | entry e =>
    have hgives := h.faithful b π x hpath hx
    rw [hres] at hgives
    obtain ⟨he, hself⟩ := h.merged b e hb hres
    exact hnode _ e x hpath he hself hgives.1

end

end Reaching

end Badc
