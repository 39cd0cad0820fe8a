import Badc.Ssa.Graph

/-!
# Strongly connected components

`SuccGraph::scc` of `src/c5/codegen/ssa/mem2reg.rs`: Tarjan's algorithm with its recursion on a stack of calls, each a
block and how many of its edges it has followed.  A block is open while it is on the other stack, and closed once it has
its component.

The invariant is `SccInv`.  Its field `bound` is what makes the number of lowest reach right although it comes up one
call at a time: an edge between open blocks that was followed below a call is known to the call or to one inside it.
The main result is `scc_components`.
-/

namespace Badc

namespace SuccGraph

open Relation

/-- The state of the algorithm; `index` is a block's number in the order of the walk plus one, `0` while unvisited, and
the tops of the stacks are in front. -/
structure Tarjan where
  comp : ℕ → Option ℕ
  ncomp : ℕ
  index : ℕ → ℕ
  low : ℕ → ℕ
  onStack : ℕ → Bool
  stack : List ℕ
  call : List (ℕ × ℕ)
  next : ℕ

namespace Tarjan

/-- Visit a block. -/
def enter (s : Tarjan) (b : ℕ) : Tarjan :=
  { s with
    index := Function.update s.index b s.next
    low := Function.update s.low b s.next
    next := s.next + 1
    stack := b :: s.stack
    onStack := Function.update s.onStack b true
    call := (b, 0) :: s.call }

/-- Pop the stack down to a block, all into one component. -/
def popTo (b c : ℕ) (s : Tarjan) : List ℕ → Tarjan
  | [] => { s with stack := [] }
  | m :: rest =>
    let s := { s with
      stack := rest
      onStack := Function.update s.onStack m false
      comp := Function.update s.comp m (some c) }
    if m = b then s else popTo b c s rest

/-- Close a component at a block that reaches nothing below it on the stack. -/
def close (s : Tarjan) (b : ℕ) : Tarjan :=
  if s.low b = s.index b then { popTo b s.ncomp s s.stack with ncomp := s.ncomp + 1 } else s

/-- Lower the number of a block's lowest reach. -/
def lower (s : Tarjan) (b k : ℕ) : Tarjan := { s with low := Function.update s.low b (min (s.low b) k) }

/-- Return from a call: what it reaches, its caller reaches. -/
def returnFrom (s : Tarjan) (b : ℕ) : Tarjan :=
  match s.call with
  | (parent, _) :: _ => s.lower parent (s.low b)
  | [] => s

end Tarjan

/-- One round: follow the next edge of the call on top, or return from it. -/
def sccStep (g : SuccGraph) (s : Tarjan) : Option Tarjan :=
  match s.call with
  | [] => none
  | (b, si) :: rest =>
    match (g.of b)[si]? with
    | some t =>
      let s := { s with call := (b, si + 1) :: rest }
      some (if s.index t = 0 then s.enter t else if s.onStack t then s.lower b (s.index t) else s)
    | none => some ((Tarjan.close { s with call := rest } b).returnFrom b)

/-- The walk from one root. -/
def sccRoot (g : SuccGraph) (s : Tarjan) (root : ℕ) : Tarjan :=
  if s.index root = 0 then whileSome g.sccStep g.walkFuel (s.enter root) else s

/-- The state before the walk. -/
def sccInit : Tarjan := ⟨fun _ => none, 0, fun _ => 0, fun _ => 0, fun _ => false, [], [], 1⟩

/-- The state after it. -/
def sccRun (g : SuccGraph) : Tarjan := (List.range g.size).foldl g.sccRoot sccInit

/-- Strongly connected components, one number per block, and how many there are. -/
def scc (g : SuccGraph) : (ℕ → Option ℕ) × ℕ := (g.sccRun.comp, g.sccRun.ncomp)

/-- A path leads from one block to another. -/
abbrev Leads (g : SuccGraph) : ℕ → ℕ → Prop := ReflTransGen g.Edge

/-- An edge that was followed: the calls of its block have passed it. -/
def Followed (g : SuccGraph) (s : Tarjan) (b t : ℕ) : Prop :=
  ∃ i, (g.of b)[i]? = some t ∧ ∀ si, (b, si) ∈ s.call → i < si

/-- What the walk keeps.
* `sorted`, `onStack`, `visited`, `opened`, `fresh`: the visited blocks are the open ones, on the stack by falling
  number, and the closed ones.
* `calls`, `bottom`: the blocks of the calls lie on the stack in the same order, the lowest of it among them.
* `seen`, `closed`: a followed edge leads to a visited block, and one of a closed block to a closed block whose
  component is not numbered after its own.
* `joined`: the blocks of one component reach each other.
* `below`: a call's block reaches the open blocks above it.
* `low_le`, `low_leads`, `low_lt`: a block's number of lowest reach is that of an open block it reaches, not above its
  own, and below it once the block's call has returned.
* `bound`: an edge between open blocks that was followed from above a call's block is known to that call or to one
  inside it. -/
structure SccInv (g : SuccGraph) (s : Tarjan) : Prop where
  sorted : s.stack.Pairwise fun x y => s.index y < s.index x
  onStack : ∀ b, s.onStack b = true ↔ b ∈ s.stack
  visited : ∀ b, s.index b ≠ 0 ↔ b ∈ s.stack ∨ (s.comp b).isSome
  opened : ∀ b ∈ s.stack, s.comp b = none
  fresh : ∀ b, s.index b < s.next
  calls : (s.call.map Prod.fst).Sublist s.stack
  bottom : ∀ x ∈ s.stack, ∃ b ∈ s.call.map Prod.fst, s.index b ≤ s.index x
  seen : ∀ x ∈ s.stack, ∀ t, g.Followed s x t → s.index t ≠ 0
  closed : ∀ b c, s.comp b = some c → c < s.ncomp ∧ ∀ t, g.Edge b t → ∃ d ≤ c, s.comp t = some d
  joined : ∀ a b c, s.comp a = some c → s.comp b = some c → g.Leads a b
  below : ∀ b ∈ s.call.map Prod.fst, ∀ x ∈ s.stack, s.index b ≤ s.index x → g.Leads b x
  low_le : ∀ x ∈ s.stack, s.low x ≤ s.index x
  low_leads : ∀ x ∈ s.stack, ∃ w ∈ s.stack, s.index w = s.low x ∧ g.Leads x w
  low_lt : ∀ x ∈ s.stack, x ∉ s.call.map Prod.fst → s.low x < s.index x
  bound : ∀ x ∈ s.stack, ∀ w ∈ s.stack, g.Followed s x w → ∀ b ∈ s.call.map Prod.fst, s.index b ≤ s.index x →
    ∃ q ∈ s.call.map Prod.fst, s.index b ≤ s.index q ∧ s.low q ≤ s.index w

variable {g : SuccGraph} {s : Tarjan} {b t : ℕ} {si : ℕ} {rest : List (ℕ × ℕ)}

namespace SccInv

lemma notMem_of_index (h : SccInv g s) (ht : s.index t = 0) : t ∉ s.stack := fun hmem =>
  (h.visited t).mpr (Or.inl hmem) ht

lemma mem_stack (h : SccInv g s) (hb : b ∈ s.call.map Prod.fst) : b ∈ s.stack := h.calls.subset hb

lemma index_le_top (h : SccInv g s) (hcall : s.call = (b, si) :: rest) {q : ℕ} (hq : q ∈ s.call.map Prod.fst) :
    s.index q ≤ s.index b := by
  have hp := h.sorted.sublist h.calls
  rw [hcall, List.map_cons] at hp hq
  rcases List.mem_cons.mp hq with rfl | hq
  · exact le_rfl
  · exact ((List.pairwise_cons.mp hp).1 q hq).le

lemma index_lt_top (h : SccInv g s) (hcall : s.call = (b, si) :: rest) {q : ℕ} (hq : q ∈ rest.map Prod.fst) :
    s.index q < s.index b := by
  have hp := h.sorted.sublist h.calls
  rw [hcall, List.map_cons] at hp
  exact (List.pairwise_cons.mp hp).1 q hq

lemma index_inj (h : SccInv g s) {x y : ℕ} (hx : x ∈ s.stack) (hy : y ∈ s.stack) (heq : s.index x = s.index y) :
    x = y := by
  have hp : (s.stack.map s.index).Nodup := List.pairwise_map.mpr (h.sorted.imp fun hlt => hlt.ne')
  exact List.inj_on_of_nodup_map hp hx hy heq

lemma followed_enter {x w : ℕ} (h : g.Followed (s.enter t) x w) : x ≠ t ∧ g.Followed s x w := by
  obtain ⟨i, hi, hall⟩ := h
  refine ⟨?_, i, hi, fun si hsi => hall si (.tail _ hsi)⟩
  rintro rfl
  exact absurd (hall 0 (.head _)) (Nat.not_lt_zero i)

/-- An unvisited block is entered: from the top call, whose count of edges may have gone up, or as a root. -/
lemma enter (h : SccInv g s) (ht : s.index t = 0) {call : List (ℕ × ℕ)}
    (hcall : call.map Prod.fst = s.call.map Prod.fst)
    (hfollow : ∀ x w, g.Followed { s with call } x w → g.Followed s x w ∨ w = t)
    (hleads : ∀ q ∈ s.call.map Prod.fst, g.Leads q t) : SccInv g (Tarjan.enter { s with call } t) := by
  have htn : t ∉ s.stack := h.notMem_of_index ht
  have hcomp : s.comp t = none := by
    by_contra hc
    exact (h.visited t).mpr (Or.inr (Option.isSome_iff_ne_none.mpr hc)) ht
  have hne : ∀ {x}, x ∈ s.stack → x ≠ t := fun hx hxt => htn (hxt ▸ hx)
  -- The numbers of the other blocks stay, and the new one is the largest.
  have hindex : ∀ {x}, x ≠ t → Function.update s.index t s.next x = s.index x := fun hx =>
    Function.update_of_ne hx _ _
  have hlow : ∀ {x}, x ≠ t → Function.update s.low t s.next x = s.low x := fun hx =>
    Function.update_of_ne hx _ _
  have hnext : s.next ≠ 0 := fun h0 => by have := h.fresh t; omega
  refine ⟨?_, fun b => ?_, fun b => ?_, fun b hb => ?_, fun b => ?_, ?_, fun x hx => ?_, fun x hx w hw => ?_,
    h.closed, h.joined, fun b hb x hx hle => ?_, fun x hx => ?_, fun x hx => ?_, fun x hx hnc => ?_,
    fun x hx w hw hf b hb hle => ?_⟩
  all_goals simp only [Tarjan.enter, List.map_cons, hcall] at *
  · refine List.pairwise_cons.mpr ⟨fun y hy => ?_, h.sorted.imp_of_mem fun hx hy hlt => ?_⟩
    · rw [Function.update_self, hindex (hne hy)]
      exact h.fresh y
    · rwa [hindex (hne hx), hindex (hne hy)]
  · by_cases hb : b = t
    · simp [hb]
    · simp [hb, h.onStack b]
  · by_cases hb : b = t
    · simp [hb, hnext]
    · simp [hb, ← h.visited b]
  · rcases List.mem_cons.mp hb with rfl | hb
    · exact hcomp
    · exact h.opened b hb
  · by_cases hb : b = t
    · simp [hb]
    · rw [hindex hb]
      exact (h.fresh b).trans (Nat.lt_succ_self _)
  · exact h.calls.cons_cons t
  · rcases List.mem_cons.mp hx with rfl | hx
    · exact ⟨x, (.head _), le_rfl⟩
    · obtain ⟨b, hb, hle⟩ := h.bottom x hx
      exact ⟨b, List.mem_cons_of_mem _ hb, by rwa [hindex (hne hx), hindex (hne (h.mem_stack hb))]⟩
  · obtain ⟨hxt, hw⟩ := followed_enter (s := { s with call }) hw
    by_cases hwt : w = t
    · rw [hwt, Function.update_self]
      exact hnext
    · rw [hindex hwt]
      exact h.seen x ((List.mem_cons.mp hx).resolve_left hxt) w ((hfollow x w hw).resolve_right hwt)
  · rcases List.mem_cons.mp hx with rfl | hx
    · rcases List.mem_cons.mp hb with rfl | hb
      · exact .refl
      · exact hleads b hb
    · rw [hindex (hne hx)] at hle
      rcases List.mem_cons.mp hb with rfl | hb
      · rw [Function.update_self] at hle
        exact absurd (h.fresh x) (Nat.not_lt.mpr hle)
      · rw [hindex (hne (h.mem_stack hb))] at hle
        exact h.below b hb x hx hle
  · rcases List.mem_cons.mp hx with rfl | hx
    · simp
    · rw [hindex (hne hx), hlow (hne hx)]
      exact h.low_le x hx
  · rcases List.mem_cons.mp hx with rfl | hx
    · exact ⟨x, (.head _), by simp, .refl⟩
    · obtain ⟨w, hw, heq, hl⟩ := h.low_leads x hx
      exact ⟨w, List.mem_cons_of_mem _ hw, by rw [hindex (hne hw), hlow (hne hx), heq], hl⟩
  · obtain ⟨hxt, hnc⟩ := not_or.mp (List.mem_cons.not.mp hnc)
    have hx := (List.mem_cons.mp hx).resolve_left hxt
    rw [hindex hxt, hlow hxt]
    exact h.low_lt x hx hnc
  · obtain ⟨hxt, hf⟩ := followed_enter (s := { s with call }) hf
    have hx := (List.mem_cons.mp hx).resolve_left hxt
    rw [hindex hxt] at hle
    have hbt : b ≠ t := by
      rintro rfl
      rw [Function.update_self] at hle
      exact absurd (h.fresh x) (Nat.not_lt.mpr hle)
    have hb := (List.mem_cons.mp hb).resolve_left hbt
    rw [hindex hbt] at hle ⊢
    by_cases hwt : w = t
    · refine ⟨t, (.head _), ?_, by rw [hwt]; simp⟩
      rw [Function.update_self]
      exact (h.fresh b).le
    · have hw := (List.mem_cons.mp hw).resolve_left hwt
      obtain ⟨q, hq, hbq, hqw⟩ := h.bound x hx w hw ((hfollow x w hf).resolve_right hwt) b hb hle
      have hqt := hne (h.mem_stack hq)
      exact ⟨q, List.mem_cons_of_mem _ hq, by rwa [hindex hqt], by rwa [hindex hwt, hlow hqt]⟩

/-- The edges followed once the top call has followed one more. -/
lemma followed_next (hcall : s.call = (b, si) :: rest) (hi : (g.of b)[si]? = some t) {x w : ℕ}
    (h : g.Followed { s with call := (b, si + 1) :: rest } x w) : g.Followed s x w ∨ x = b ∧ w = t := by
  obtain ⟨i, hw, hall⟩ := h
  by_cases hlast : x = b ∧ i = si
  · obtain ⟨rfl, rfl⟩ := hlast
    exact Or.inr ⟨rfl, Option.some.inj (hw.symm.trans hi)⟩
  refine Or.inl ⟨i, hw, fun sj hsj => ?_⟩
  rw [hcall] at hsj
  rcases List.mem_cons.mp hsj with heq | hsj
  · obtain ⟨rfl, rfl⟩ := Prod.mk.inj heq
    have := hall (sj + 1) (.head _)
    have : i ≠ sj := fun hne => hlast ⟨rfl, hne⟩
    omega
  · exact hall sj (.tail _ hsj)

lemma followed_return (hcall : s.call = (b, si) :: rest) (hend : (g.of b)[si]? = none) {x w : ℕ}
    (h : g.Followed { s with call := rest } x w) : g.Followed s x w := by
  obtain ⟨i, hw, hall⟩ := h
  refine ⟨i, hw, fun sj hsj => ?_⟩
  rw [hcall] at hsj
  rcases List.mem_cons.mp hsj with heq | hsj
  · obtain ⟨rfl, rfl⟩ := Prod.mk.inj heq
    exact (List.getElem?_eq_some_iff.mp hw).1.trans_le (List.getElem?_eq_none_iff.mp hend)
  · exact hall sj hsj

/-- The top call follows an edge to a visited block. -/
lemma look (h : SccInv g s) (hcall : s.call = (b, si) :: rest) (hi : (g.of b)[si]? = some t) (ht : s.index t ≠ 0)
    {low : ℕ → ℕ} (hle : ∀ x, low x ≤ s.low x)
    (hleads : ∀ x ∈ s.stack, ∃ w ∈ s.stack, s.index w = low x ∧ g.Leads x w)
    (hb : t ∈ s.stack → low b ≤ s.index t) : SccInv g { s with call := (b, si + 1) :: rest, low } := by
  have hfst : (((b, si + 1) :: rest).map Prod.fst) = s.call.map Prod.fst := by rw [hcall]; rfl
  refine { h with
    calls := hfst ▸ h.calls
    bottom := hfst ▸ h.bottom
    seen := fun x hx w hw => ?_
    below := hfst ▸ h.below
    low_le := fun x hx => (hle x).trans (h.low_le x hx)
    low_leads := hleads
    low_lt := fun x hx hnc => (hle x).trans_lt (h.low_lt x hx (hfst ▸ hnc))
    bound := fun x hx w hw hf q hq hqx => ?_ }
  · rcases followed_next hcall hi hw with hw | ⟨-, rfl⟩
    · exact h.seen x hx w hw
    · exact ht
  · simp only [hfst] at hq ⊢
    rcases followed_next hcall hi hf with hf | ⟨rfl, rfl⟩
    · obtain ⟨q', hq', hqq', hw'⟩ := h.bound x hx w hw hf q hq hqx
      exact ⟨q', hq', hqq', (hle q').trans hw'⟩
    · exact ⟨x, by rw [hcall]; exact .head _, hqx, hb hw⟩

/-- The top call returns without closing a component: its caller takes its number of lowest reach. -/
lemma stay (h : SccInv g s) (hcall : s.call = (b, si) :: rest) (hend : (g.of b)[si]? = none)
    (hlow : s.low b ≠ s.index b) : SccInv g (Tarjan.returnFrom { s with call := rest } b) := by
  have hbs : b ∈ s.stack := h.mem_stack (by rw [hcall]; exact .head _)
  obtain ⟨w, hw, hwb, hbw⟩ := h.low_leads b hbs
  have hlt : s.low b < s.index b := lt_of_le_of_ne (h.low_le b hbs) hlow
  -- The call has a caller, since the block reached lies above some call's.
  obtain ⟨q, hq, hqw⟩ := h.bottom w hw
  obtain ⟨⟨p, sp⟩, rest', rfl⟩ : ∃ c rest', rest = c :: rest' := by
    cases rest with
    | cons c rest' => exact ⟨c, rest', rfl⟩
    | nil =>
      rw [hcall] at hq
      obtain rfl := List.mem_singleton.mp hq
      omega
  have hp : p ∈ ((p, sp) :: rest').map Prod.fst := (.head _)
  have hpb : s.index p < s.index b := h.index_lt_top hcall hp
  have hbp : b ≠ p := by
    rintro rfl
    exact lt_irrefl _ hpb
  have hsub : ∀ {q}, q ∈ ((p, sp) :: rest').map Prod.fst → q ∈ s.call.map Prod.fst := fun hq => by
    rw [hcall]
    exact List.mem_cons_of_mem _ hq
  have hcases : ∀ {q}, q ∈ s.call.map Prod.fst → q = b ∨ q ∈ ((p, sp) :: rest').map Prod.fst := fun hq => by
    rw [hcall] at hq
    exact List.mem_cons.mp hq
  -- The caller has the largest number among the calls left.
  have htop : ∀ {q}, q ∈ ((p, sp) :: rest').map Prod.fst → s.index q ≤ s.index p := fun hq => by
    have hpw := h.sorted.sublist h.calls
    rw [hcall, List.map_cons, List.map_cons] at hpw
    rcases List.mem_cons.mp hq with rfl | hq
    · exact le_rfl
    · exact ((List.pairwise_cons.mp (List.pairwise_cons.mp hpw).2).1 _ hq).le
  have hle : ∀ x, Function.update s.low p (min (s.low p) (s.low b)) x ≤ s.low x := fun x => by
    by_cases hx : x = p
    · subst hx
      rw [Function.update_self]
      exact min_le_left _ _
    · rw [Function.update_of_ne hx]
  show SccInv g { s with call := (p, sp) :: rest', low := Function.update s.low p (min (s.low p) (s.low b)) }
  refine { h with
    calls := ?_
    bottom := fun x hx => ?_
    seen := fun x hx w hw => h.seen x hx w (followed_return hcall hend hw)
    below := fun q hq => h.below q (hsub hq)
    low_le := fun x hx => (hle x).trans (h.low_le x hx)
    low_leads := fun x hx => ?_
    low_lt := fun x hx hnc => ?_
    bound := fun x hx w hw hf q hq hqx => ?_ }
  · refine List.Sublist.trans ?_ h.calls
    rw [hcall]
    exact List.sublist_cons_self _ _
  · obtain ⟨q, hq, hqx⟩ := h.bottom x hx
    rcases hcases hq with rfl | hq
    · exact ⟨p, hp, hpb.le.trans hqx⟩
    · exact ⟨q, hq, hqx⟩
  · by_cases hxp : x = p
    · subst hxp
      dsimp only
      rw [Function.update_self]
      rcases min_choice (s.low x) (s.low b) with hmin | hmin
      · rw [hmin]
        exact h.low_leads x hx
      · rw [hmin]
        exact ⟨w, hw, hwb, (h.below x (hsub hp) b hbs hpb.le).trans hbw⟩
    · dsimp only
      rw [Function.update_of_ne hxp]
      exact h.low_leads x hx
  · by_cases hxb : x = b
    · subst hxb
      exact (hle x).trans_lt hlt
    · refine (hle x).trans_lt (h.low_lt x hx fun hxc => ?_)
      exact hnc ((hcases hxc).resolve_left hxb)
  · obtain ⟨q', hq', hqq', hw'⟩ := h.bound x hx w hw (followed_return hcall hend hf) q (hsub hq) hqx
    rcases hcases hq' with rfl | hq'
    · refine ⟨p, hp, htop hq, ?_⟩
      dsimp only
      rw [Function.update_self]
      exact (min_le_right _ _).trans hw'
    · exact ⟨q', hq', hqq', (hle q').trans hw'⟩

/-- The blocks of the component that closes at the top call reach its block and are reached by it, and their edges stay
among them or lead to closed blocks. -/
lemma component (h : SccInv g s) (hcall : s.call = (b, si) :: rest) (hend : (g.of b)[si]? = none)
    (hlow : s.low b = s.index b) {x : ℕ} (hx : x ∈ s.stack) (hbx : s.index b ≤ s.index x) :
    g.Leads b x ∧ g.Leads x b ∧
      ∀ t, g.Edge x t → t ∈ s.stack ∧ s.index b ≤ s.index t ∨ (s.comp t).isSome := by
  have hb : b ∈ s.call.map Prod.fst := by rw [hcall]; exact .head _
  have hbs := h.mem_stack hb
  have hedge : ∀ x ∈ s.stack, s.index b ≤ s.index x → ∀ t, g.Edge x t →
      t ∈ s.stack ∧ s.index b ≤ s.index t ∨ (s.comp t).isSome := by
    intro x hx hbx t hxt
    -- The block is of no other call, so that its edges were all followed.
    have hfollow : g.Followed s x t := by
      obtain ⟨i, hi⟩ := List.mem_iff_getElem?.mp hxt
      refine ⟨i, hi, fun sj hsj => ?_⟩
      have hlast := h.index_le_top hcall (List.mem_map_of_mem hsj)
      obtain rfl := h.index_inj hx hbs (le_antisymm hlast hbx)
      rw [hcall] at hsj
      rcases List.mem_cons.mp hsj with heq | hsj
      · obtain ⟨-, rfl⟩ := Prod.mk.inj heq
        exact (List.getElem?_eq_some_iff.mp hi).1.trans_le (List.getElem?_eq_none_iff.mp hend)
      · exact absurd (h.index_lt_top hcall (List.mem_map_of_mem hsj)) (lt_irrefl _)
    refine ((h.visited t).mp (h.seen x hx t hfollow)).imp (fun ht => ⟨ht, ?_⟩) id
    obtain ⟨q, hq, hbq, hqt⟩ := h.bound x hx t ht hfollow b hb hbx
    obtain rfl := h.index_inj (h.mem_stack hq) hbs (le_antisymm (h.index_le_top hcall hq) hbq)
    exact hlow ▸ hqt
  refine ⟨h.below b hb x hx hbx, ?_, hedge x hx hbx⟩
  -- Whatever the component leads to is in it or closed, and closed blocks lead to closed ones.
  have hclosure : ∀ x w, g.Leads x w → x ∈ s.stack → s.index b ≤ s.index x →
      w ∈ s.stack ∧ s.index b ≤ s.index w ∨ (s.comp w).isSome := by
    intro x w hxw hx hbx
    induction hxw with
    | refl => exact Or.inl ⟨hx, hbx⟩
    | @tail v w _ hvw ih =>
      rcases ih with ⟨hv, hbv⟩ | hv
      · exact hedge v hv hbv w hvw
      · obtain ⟨c, hc⟩ := Option.isSome_iff_exists.mp hv
        obtain ⟨d, -, hd⟩ := (h.closed v c hc).2 w hvw
        exact Or.inr (by rw [hd]; rfl)
  -- Going to the lowest block reached lowers the number, until the component's own block.
  induction hk : s.index x using Nat.strong_induction_on generalizing x with
  | _ k ih =>
    by_cases hxb : x = b
    · exact hxb ▸ .refl
    have hnc : x ∉ s.call.map Prod.fst := fun hxc =>
      hxb (h.index_inj hx hbs (le_antisymm (h.index_le_top hcall hxc) hbx))
    obtain ⟨w, hw, hwx, hxw⟩ := h.low_leads x hx
    rcases hclosure x w hxw hx hbx with ⟨-, hbw⟩ | hclosed
    · exact hxw.trans (ih _ (by rw [hwx, ← hk]; exact h.low_lt x hx hnc) hw hbw rfl)
    · rw [h.opened w hw] at hclosed
      cases hclosed

/-- Popping down to a block. -/
lemma popTo_append {c : ℕ} {above under : List ℕ} (hb : b ∉ above) :
    Tarjan.popTo b c s (above ++ b :: under) = { s with
      stack := under
      onStack := fun x => if x ∈ above ∨ x = b then false else s.onStack x
      comp := fun x => if x ∈ above ∨ x = b then some c else s.comp x } := by
  induction above generalizing s with
  | nil =>
    simp only [List.nil_append, Tarjan.popTo, if_true, List.not_mem_nil, false_or]
    congr 1 <;> funext x <;> simp only [Function.update_apply]
  | cons m above ih =>
    obtain ⟨hbm, hb⟩ := not_or.mp (List.mem_cons.not.mp hb)
    rw [List.cons_append, Tarjan.popTo, if_neg (Ne.symm hbm), ih hb]
    congr 1 <;> funext x <;> by_cases hx : x = m <;> simp [hx]

/-- The top call returns and closes its component. -/
lemma pop (h : SccInv g s) (hcall : s.call = (b, si) :: rest) (hend : (g.of b)[si]? = none)
    (hlow : s.low b = s.index b) :
    SccInv g (Tarjan.returnFrom (Tarjan.close { s with call := rest } b) b) := by
  have hb : b ∈ s.call.map Prod.fst := by rw [hcall]; exact .head _
  have hbs := h.mem_stack hb
  obtain ⟨above, under, hstack⟩ := List.append_of_mem hbs
  have hsorted := h.sorted
  rw [hstack] at hsorted
  obtain ⟨-, hlower, hcross⟩ := List.pairwise_append.mp hsorted
  obtain ⟨hunder, hsorted⟩ := List.pairwise_cons.mp hlower
  have habove : ∀ x ∈ above, s.index b < s.index x := fun x hx => hcross x hx b (.head _)
  have hba : b ∉ above := fun hba => lt_irrefl _ (habove b hba)
  -- The component is what lies on the stack from its block up.
  have hin : ∀ {x}, x ∈ above ∨ x = b ↔ x ∈ s.stack ∧ s.index b ≤ s.index x := by
    intro x
    rw [hstack]
    constructor
    · rintro (hx | rfl)
      · exact ⟨List.mem_append_left _ hx, (habove x hx).le⟩
      · exact ⟨by simp, le_rfl⟩
    · rintro ⟨hx, hle⟩
      rcases List.mem_append.mp hx with hx | hx
      · exact Or.inl hx
      · rcases List.mem_cons.mp hx with rfl | hx
        · exact Or.inr rfl
        · exact absurd (hunder x hx) (Nat.not_lt.mpr hle)
  have hout : ∀ {x}, x ∈ under ↔ x ∈ s.stack ∧ s.index x < s.index b := by
    intro x
    rw [hstack]
    constructor
    · exact fun hx => ⟨by simp [hx], hunder x hx⟩
    · rintro ⟨hx, hlt⟩
      rcases List.mem_append.mp hx with hx | hx
      · exact absurd (habove x hx) (Nat.not_lt.mpr hlt.le)
      · exact (List.mem_cons.mp hx).resolve_left fun hxb => lt_irrefl _ (hxb ▸ hlt)
  have hkept : ∀ {x}, x ∈ under → ¬ (x ∈ above ∨ x = b) := fun hx hx' =>
    absurd (hout.mp hx).2 (Nat.not_lt.mpr (hin.mp hx').2)
  have hsub : ∀ {q}, q ∈ rest.map Prod.fst → q ∈ s.call.map Prod.fst := fun hq => by
    rw [hcall]
    exact List.mem_cons_of_mem _ hq
  have hrest : ∀ {q}, q ∈ s.call.map Prod.fst → s.index q < s.index b → q ∈ rest.map Prod.fst := fun hq hlt => by
    rw [hcall] at hq
    exact (List.mem_cons.mp hq).resolve_left fun hqb => lt_irrefl _ (hqb ▸ hlt)
  -- The caller's number is lower already.
  have hreturn : Tarjan.returnFrom (Tarjan.close { s with call := rest } b) b = { s with
      call := rest
      stack := under
      onStack := fun x => if x ∈ above ∨ x = b then false else s.onStack x
      comp := fun x => if x ∈ above ∨ x = b then some s.ncomp else s.comp x
      ncomp := s.ncomp + 1 } := by
    rw [Tarjan.close, if_pos hlow]
    dsimp only
    rw [hstack, popTo_append hba]
    cases rest with
    | nil => rfl
    | cons c rest' =>
      obtain ⟨p, sp⟩ := c
      have hp := h.index_lt_top hcall (List.mem_cons_self (a := p))
      have hmin : min (s.low p) (s.low b) = s.low p := min_eq_left
        (((h.low_le p (h.mem_stack (hsub (.head _)))).trans hp.le).trans hlow.ge)
      simp only [Tarjan.returnFrom, Tarjan.lower, hmin, Function.update_eq_self]
  rw [hreturn]
  refine { h with
    sorted := hsorted
    onStack := fun x => ?_
    visited := fun x => ?_
    opened := fun x hx => ?_
    calls := ?_
    bottom := fun x hx => ?_
    seen := fun x hx w hw => h.seen x (hout.mp hx).1 w (followed_return hcall hend hw)
    closed := fun x c hc => ?_
    joined := fun x y c hx hy => ?_
    below := fun q hq x hx => h.below q (hsub hq) x (hout.mp hx).1
    low_le := fun x hx => h.low_le x (hout.mp hx).1
    low_leads := fun x hx => ?_
    low_lt := fun x hx hnc => ?_
    bound := fun x hx w hw hf q hq hqx => ?_ }
  · dsimp only
    split
    · rename_i hx
      exact iff_of_false Bool.false_ne_true fun hu => hkept hu hx
    · rename_i hx
      rw [h.onStack x, hstack, List.mem_append, List.mem_cons]
      tauto
  · dsimp only
    rw [h.visited x, hstack, List.mem_append, List.mem_cons]
    split
    · simp only [Option.isSome_some, or_true, iff_true]
      tauto
    · tauto
  · dsimp only
    rw [if_neg (hkept hx)]
    exact h.opened x (hout.mp hx).1
  · have hfilter : s.stack.filter (fun x => s.index x < s.index b) = under := by
      rw [hstack, List.filter_append, List.filter_cons_of_neg (by simp),
        List.filter_eq_nil_iff.mpr fun x hx => by simpa using (habove x hx).le,
        List.filter_eq_self.mpr fun x hx => by simpa using hunder x hx]
      rfl
    have hall : (rest.map Prod.fst).filter (fun x => s.index x < s.index b) = rest.map Prod.fst :=
      List.filter_eq_self.mpr fun q hq => by simpa using h.index_lt_top hcall hq
    rw [← hfilter, ← hall]
    refine List.Sublist.filter _ (List.Sublist.trans ?_ h.calls)
    rw [hcall]
    exact List.sublist_cons_self _ _
  · obtain ⟨q, hq, hqx⟩ := h.bottom x (hout.mp hx).1
    exact ⟨q, hrest hq (hqx.trans_lt (hout.mp hx).2), hqx⟩
  · dsimp only at hc ⊢
    split at hc
    · rename_i hx
      obtain rfl := Option.some.inj hc
      refine ⟨Nat.lt_succ_self _, fun t hxt => ?_⟩
      rcases (h.component hcall hend hlow (hin.mp hx).1 (hin.mp hx).2).2.2 t hxt with ht | ht
      · exact ⟨s.ncomp, le_rfl, if_pos (hin.mpr ht)⟩
      · obtain ⟨d, hd⟩ := Option.isSome_iff_exists.mp ht
        refine ⟨d, (h.closed t d hd).1.le, ?_⟩
        rwa [if_neg fun htin => by rw [h.opened t (hin.mp htin).1] at hd; cases hd]
    · obtain ⟨hlt, hedges⟩ := h.closed x c hc
      refine ⟨hlt.trans (Nat.lt_succ_self _), fun t hxt => ?_⟩
      obtain ⟨d, hdc, hd⟩ := hedges t hxt
      refine ⟨d, hdc, ?_⟩
      rwa [if_neg fun htin => by rw [h.opened t (hin.mp htin).1] at hd; cases hd]
  · dsimp only at hx hy
    split at hx
    · rename_i hxin
      obtain rfl := Option.some.inj hx
      split at hy
      · rename_i hyin
        exact (h.component hcall hend hlow (hin.mp hxin).1 (hin.mp hxin).2).2.1.trans
          (h.component hcall hend hlow (hin.mp hyin).1 (hin.mp hyin).2).1
      · exact absurd (h.closed y _ hy).1 (lt_irrefl _)
    · split at hy
      · obtain rfl := Option.some.inj hy
        exact absurd (h.closed x _ hx).1 (lt_irrefl _)
      · exact h.joined x y c hx hy
  · obtain ⟨w, hw, hwx, hxw⟩ := h.low_leads x (hout.mp hx).1
    refine ⟨w, hout.mpr ⟨hw, ?_⟩, hwx, hxw⟩
    exact hwx ▸ (h.low_le x (hout.mp hx).1).trans_lt (hout.mp hx).2
  · exact h.low_lt x (hout.mp hx).1 fun hxc => hnc (hrest hxc (hout.mp hx).2)
  · obtain ⟨q', hq', hqq', hw'⟩ :=
      h.bound x (hout.mp hx).1 w (hout.mp hw).1 (followed_return hcall hend hf) q (hsub hq) hqx
    refine ⟨q', hrest hq' (lt_of_le_of_ne (h.index_le_top hcall hq') fun heq => ?_), hqq', hw'⟩
    obtain rfl := h.index_inj (h.mem_stack hq') hbs heq
    exact absurd (hout.mp hw).2 (Nat.not_lt.mpr (hlow ▸ hw'))

/-- One round keeps the invariant. -/
lemma step {s' : Tarjan} (h : SccInv g s) (hs : g.sccStep s = some s') : SccInv g s' := by
  unfold sccStep at hs
  split at hs
  · cases hs
  · rename_i b si rest hcall
    split at hs
    · rename_i t hi
      obtain rfl := Option.some.inj hs
      dsimp only
      split
      · rename_i ht
        refine h.enter ht (by rw [hcall]; rfl) (fun x w hf => (followed_next hcall hi hf).imp_right And.right) ?_
        intro q hq
        have hb := h.mem_stack (b := b) (by rw [hcall]; exact .head _)
        exact (h.below q hq b hb (h.index_le_top hcall hq)).tail (List.mem_of_getElem? hi)
      · rename_i ht
        split
        · rename_i hon
          have hts := (h.onStack t).mp hon
          refine h.look hcall hi ht (fun x => ?_) (fun x hx => ?_) fun _ => ?_
          all_goals dsimp only [Tarjan.lower]
          · by_cases hx : x = b
            · subst hx
              rw [Function.update_self]
              exact min_le_left _ _
            · rw [Function.update_of_ne hx]
          · by_cases hxb : x = b
            · subst hxb
              rw [Function.update_self]
              rcases min_choice (s.low x) (s.index t) with hmin | hmin
              · rw [hmin]
                exact h.low_leads x hx
              · rw [hmin]
                exact ⟨t, hts, rfl, .single (List.mem_of_getElem? hi)⟩
            · rw [Function.update_of_ne hxb]
              exact h.low_leads x hx
          · rw [Function.update_self]
            exact min_le_right _ _
        · rename_i hon
          exact h.look hcall hi ht (fun _ => le_rfl) h.low_leads fun hts => absurd ((h.onStack t).mpr hts) hon
    · rename_i hend
      obtain rfl := Option.some.inj hs
      by_cases hlow : s.low b = s.index b
      · exact h.pop hcall hend hlow
      · rw [Tarjan.close, if_neg hlow]
        exact h.stay hcall hend hlow

end SccInv

/-- Rounds left to the walk: the unvisited blocks with their edges, and what the calls have not followed. -/
def sccMeasure (g : SuccGraph) (s : Tarjan) : ℕ :=
  (∑ b ∈ (Finset.range g.size).filter fun b => s.index b = 0, ((g.of b).length + 1)) +
    (s.call.map fun p => (g.of p.1).length - p.2 + 1).sum

/-- Entering an unvisited block moves its rounds to its call. -/
lemma sccMeasure_enter (ht : s.index t = 0) (hn : s.next ≠ 0) (hsz : t < g.size) :
    g.sccMeasure (s.enter t) = g.sccMeasure s := by
  have hindex : (s.enter t).index = Function.update s.index t s.next := rfl
  have hfilter : (Finset.range g.size).filter (fun x => s.index x = 0) =
      insert t ((Finset.range g.size).filter fun x => (s.enter t).index x = 0) := by
    ext x
    simp only [Finset.mem_filter, Finset.mem_range, Finset.mem_insert, hindex]
    by_cases hxt : x = t
    · simp [hxt, hsz, ht]
    · simp [hxt]
  have hsum : ∑ x ∈ (Finset.range g.size).filter (fun x => s.index x = 0), ((g.of x).length + 1) =
      ((g.of t).length + 1) + ∑ x ∈ (Finset.range g.size).filter
        (fun x => (s.enter t).index x = 0), ((g.of x).length + 1) := by
    rw [hfilter, Finset.sum_insert (by simp [hindex, hn])]
  have hc : (s.enter t).call = (t, 0) :: s.call := rfl
  rw [sccMeasure, sccMeasure, hsum, hc, List.map_cons, List.sum_cons]
  dsimp only
  omega

lemma popTo_index_call (b c : ℕ) (l : List ℕ) (s : Tarjan) :
    (Tarjan.popTo b c s l).index = s.index ∧ (Tarjan.popTo b c s l).call = s.call := by
  induction l generalizing s with
  | nil => exact ⟨rfl, rfl⟩
  | cons m rest ih =>
    rw [Tarjan.popTo]
    split
    · exact ⟨rfl, rfl⟩
    · exact ih _

lemma returnFrom_index_call (s : Tarjan) (b : ℕ) :
    (Tarjan.returnFrom (Tarjan.close s b) b).index = s.index ∧ (Tarjan.returnFrom (Tarjan.close s b) b).call = s.call := by
  have hclose : (Tarjan.close s b).index = s.index ∧ (Tarjan.close s b).call = s.call := by
    unfold Tarjan.close
    split
    · exact popTo_index_call b s.ncomp s.stack s
    · exact ⟨rfl, rfl⟩
  unfold Tarjan.returnFrom
  split <;> exact hclose

/-- A visited block stays visited. -/
lemma index_ne_step {s' : Tarjan} (hs : g.sccStep s = some s') (hb : s.index b ≠ 0) :
    s'.index b ≠ 0 := by
  unfold sccStep at hs
  split at hs
  · cases hs
  · rename_i c si rest hcall
    split at hs
    · rename_i t hi
      obtain rfl := Option.some.inj hs
      dsimp only
      split
      · rename_i ht
        have hbt : b ≠ t := fun hbt => hb (hbt ▸ ht)
        simpa [Tarjan.enter, hbt] using hb
      · split <;> exact hb
    · obtain rfl := Option.some.inj hs
      rwa [(returnFrom_index_call { s with call := rest } c).1]

/-- One round lowers the measure. -/
lemma sccMeasure_lt (hg : g.Closed) {s' : Tarjan} (h : SccInv g s) (hs : g.sccStep s = some s') :
    g.sccMeasure s' < g.sccMeasure s := by
  unfold sccStep at hs
  split at hs
  · cases hs
  · rename_i b si rest hcall
    split at hs
    · rename_i t hi
      obtain rfl := Option.some.inj hs
      have hlen : si < (g.of b).length := (List.getElem?_eq_some_iff.mp hi).1
      have hnext : g.sccMeasure { s with call := (b, si + 1) :: rest } < g.sccMeasure s := by
        simp only [sccMeasure, hcall, List.map_cons, List.sum_cons]
        omega
      dsimp only
      split
      · rename_i ht
        have hn : s.next ≠ 0 := fun h0 => by have := h.fresh b; omega
        exact (sccMeasure_enter (s := { s with call := (b, si + 1) :: rest }) ht hn
          (hg b t (List.mem_of_getElem? hi))).trans_lt hnext
      · split <;> exact hnext
    · obtain rfl := Option.some.inj hs
      obtain ⟨hindex, hc⟩ := returnFrom_index_call { s with call := rest } b
      simp only [sccMeasure, hindex, hc, hcall, List.map_cons, List.sum_cons]
      omega

/-- The walk from one root ends by its own test, with the root visited and no block left open. -/
lemma sccRoot_spec (hg : g.Closed) (h : SccInv g s) (hcall : s.call = []) {root : ℕ} (hroot : root < g.size) :
    SccInv g (g.sccRoot s root) ∧ (g.sccRoot s root).call = [] ∧ (g.sccRoot s root).index root ≠ 0 ∧
      ∀ b, s.index b ≠ 0 → (g.sccRoot s root).index b ≠ 0 := by
  unfold sccRoot
  split
  · rename_i hr
    have henter : SccInv g (s.enter root) :=
      h.enter hr rfl (fun x w hf => Or.inl hf) fun q hq => by rw [hcall] at hq; cases hq
    have hn : s.next ≠ 0 := fun h0 => by have := h.fresh root; omega
    have hfuel : g.sccMeasure (s.enter root) ≤ g.walkFuel := by
      rw [sccMeasure_enter hr hn hroot, sccMeasure, hcall]
      have hle : ∑ b ∈ (Finset.range g.size).filter (fun b => s.index b = 0), ((g.of b).length + 1) ≤ g.walkFuel :=
        Finset.sum_le_sum_of_subset (Finset.filter_subset _ _)
      exact hle
    have hdone : g.sccStep (whileSome g.sccStep g.walkFuel (s.enter root)) = none :=
      whileSome_done (SccInv g) g.sccMeasure (fun s s' hs hss => ⟨hs.step hss, sccMeasure_lt hg hs hss⟩) henter hfuel
    obtain ⟨hinv, hkeeps⟩ : SccInv g (whileSome g.sccStep g.walkFuel (s.enter root)) ∧
        ∀ b, (s.enter root).index b ≠ 0 → (whileSome g.sccStep g.walkFuel (s.enter root)).index b ≠ 0 :=
      whileSome_invariant (fun s' => SccInv g s' ∧ ∀ b, (s.enter root).index b ≠ 0 → s'.index b ≠ 0)
        (fun s₁ s₂ hs hss => ⟨hs.1.step hss, fun b hb => index_ne_step hss (hs.2 b hb)⟩) _
        ⟨henter, fun _ => id⟩
    refine ⟨hinv, ?_, hkeeps root ?_, fun b hb => hkeeps b ?_⟩
    · generalize whileSome g.sccStep g.walkFuel (s.enter root) = s' at hdone
      unfold sccStep at hdone
      split at hdone
      · assumption
      · split at hdone <;> cases hdone
    · simp [Tarjan.enter, hn]
    · by_cases hbr : b = root
      · exact absurd (hbr ▸ hr) hb
      · simpa [Tarjan.enter, hbr] using hb
  · rename_i hr
    exact ⟨h, hcall, hr, fun _ => id⟩

/-- The whole walk: every block is visited, none is left open. -/
lemma sccRun_spec (hg : g.Closed) :
    SccInv g g.sccRun ∧ g.sccRun.call = [] ∧ ∀ b < g.size, g.sccRun.index b ≠ 0 := by
  have hinit : SccInv g sccInit := by
    refine ⟨.nil, fun b => ?_, fun b => ?_, ?_, fun b => ?_, .slnil, ?_, ?_, fun b c hc => ?_, fun a b c hc => ?_,
      ?_, ?_, ?_, ?_, ?_⟩
    all_goals simp_all [sccInit]
  have key : ∀ (l : List ℕ) (s : Tarjan), (∀ b ∈ l, b < g.size) → SccInv g s → s.call = [] →
      SccInv g (l.foldl g.sccRoot s) ∧ (l.foldl g.sccRoot s).call = [] ∧
        ∀ b, b ∈ l ∨ s.index b ≠ 0 → (l.foldl g.sccRoot s).index b ≠ 0 := by
    intro l
    induction l with
    | nil => exact fun s _ h hc => ⟨h, hc, fun b hb => hb.resolve_left List.not_mem_nil⟩
    | cons root l ih =>
      intro s hl h hc
      obtain ⟨hinv, hcall, hroot, hkeeps⟩ := sccRoot_spec hg h hc (hl root (.head _))
      obtain ⟨hinv', hcall', hvisited⟩ := ih _ (fun b hb => hl b (.tail _ hb)) hinv hcall
      refine ⟨hinv', hcall', fun b hb => hvisited b ?_⟩
      rcases hb with hb | hb
      · rcases List.mem_cons.mp hb with rfl | hb
        · exact Or.inr hroot
        · exact Or.inl hb
      · exact Or.inr (hkeeps b hb)
  obtain ⟨hinv, hcall, hvisited⟩ := key (List.range g.size) sccInit (fun b hb => List.mem_range.mp hb) hinit rfl
  exact ⟨hinv, hcall, fun b hb => hvisited b (Or.inl (List.mem_range.mpr hb))⟩

/-- **Strongly connected components.**  On every closed graph each block gets the number of a component; two blocks get
the same one exactly when each leads to the other; and an edge from one component to another leads to one numbered
before it. -/
theorem scc_components (hg : g.Closed) :
    (∀ b < g.size, ∃ c < g.scc.2, g.scc.1 b = some c) ∧
    (∀ a < g.size, ∀ b < g.size, g.scc.1 a = g.scc.1 b ↔ g.Leads a b ∧ g.Leads b a) ∧
    ∀ a b c d, g.Edge a b → g.scc.1 a = some c → g.scc.1 b = some d → c ≠ d → d < c := by
  obtain ⟨hinv, hcall, hvisited⟩ := sccRun_spec hg
  have hclosed : ∀ b < g.size, ∃ c, g.sccRun.comp b = some c := fun b hb => by
    rcases (hinv.visited b).mp (hvisited b hb) with hmem | hsome
    · obtain ⟨q, hq, -⟩ := hinv.bottom b hmem
      rw [hcall] at hq
      cases hq
    · exact Option.isSome_iff_exists.mp hsome
  -- Along a path the number of the component does not grow.
  have hpath : ∀ {a b c}, g.Leads a b → g.sccRun.comp a = some c → ∃ d ≤ c, g.sccRun.comp b = some d := by
    intro a b c hab hc
    induction hab with
    | refl => exact ⟨c, le_rfl, hc⟩
    | tail _ hxy ih =>
      obtain ⟨d, hdc, hd⟩ := ih
      obtain ⟨e, hed, he⟩ := (hinv.closed _ d hd).2 _ hxy
      exact ⟨e, hed.trans hdc, he⟩
  refine ⟨fun b hb => ?_, fun a ha b hb => ⟨fun heq => ?_, fun ⟨hab, hba⟩ => ?_⟩, fun a b c d hab hc hd hne => ?_⟩
  · obtain ⟨c, hc⟩ := hclosed b hb
    exact ⟨c, (hinv.closed b c hc).1, hc⟩
  · obtain ⟨c, hc⟩ := hclosed a ha
    have hc' : g.sccRun.comp b = some c := heq.symm.trans hc
    exact ⟨hinv.joined a b c hc hc', hinv.joined b a c hc' hc⟩
  · obtain ⟨c, hc⟩ := hclosed a ha
    obtain ⟨d, hdc, hd⟩ := hpath hab hc
    obtain ⟨c', hcd, hc'⟩ := hpath hba hd
    obtain rfl := Option.some.inj (hc.symm.trans hc')
    exact hc.trans (le_antisymm hcd hdc ▸ hd.symm)
  · obtain ⟨d', hdc, hd'⟩ := (hinv.closed a c hc).2 b hab
    obtain rfl := Option.some.inj (hd'.symm.trans hd)
    exact lt_of_le_of_ne hdc (Ne.symm hne)

/-- Two loops that share a block, an edge across and a block apart. -/
def nestedLoops : SuccGraph := ⟨[[1], [2, 3], [0, 1], [3, 3], [2]]⟩

/-- Its components: the loops together, and each other block alone. -/
theorem scc_components_nestedLoops : nestedLoops.scc.1 0 = nestedLoops.scc.1 2 ↔
    nestedLoops.Leads 0 2 ∧ nestedLoops.Leads 2 0 :=
  (scc_components (closed_of_rows (by decide))).2.1 0 (by decide) 2 (by decide)

end SuccGraph

end Badc
