import Badc.Ssa.Repair
import Badc.Ssa.Verify

/-!
# What a repair plans

The blocks a plan looks at are closed under what their starts merge (`nodesOf_spec`), and the starts
it finds equal to one source are right on every path: one merge after another is faithful, in the
sense of `Reaching.Faithful` (`Merged.faithful`).  `planOne_spec` puts it together.
-/

namespace Badc

namespace Repair

open Reaching

/-- The edges of predecessor lists. -/
def Pred (preds : List (List ℕ)) (a b : ℕ) : Prop := a ∈ preds.getD b []

/-- What an edge carries for an item. -/
def carries (r : Redefined) (q b : ℕ) : Option ℕ :=
  match onEdge r q b with
  | .val v => some v
  | .entry _ => none

lemma edgeSrc_carries (r : Redefined) (q b : ℕ) : edgeSrc (carries r) q b = onEdge r q b := by
  unfold edgeSrc carries onEdge
  cases r.edges.find? fun e => e.1 = q && e.2.1 = b with
  | some e => rfl
  | none => by_cases hq : q ∈ r.home <;> simp [hq]

/-- Predecessor lists of a function: its blocks are the nodes, and every block named is one. -/
structure PredsOk (f : FunctionSsa) (preds : List (List ℕ)) : Prop where
  length : preds.length = f.blocks.length
  nonempty : 0 < f.blocks.length
  closed : ∀ a b, Pred preds a b → a < f.blocks.length
  roots : ∀ b ∈ roots f, b < f.blocks.length

section

variable {f : FunctionSsa} {preds : List (List ℕ)} {live : List ℕ} {r : Redefined}

/-! ## The blocks that can be reached -/

lemma mem_succsOf {q b : ℕ} : b ∈ succsOf preds q ↔ b < preds.length ∧ Pred preds q b := by
  simp only [succsOf, List.mem_flatMap, List.mem_range, List.mem_map, List.mem_filter,
    decide_eq_true_eq, Pred]
  constructor
  · rintro ⟨b', hlt, q', ⟨hq, rfl⟩, rfl⟩
    exact ⟨hlt, hq⟩
  · rintro ⟨hlt, hq⟩
    exact ⟨b, hlt, q, ⟨hq, rfl⟩, rfl⟩

lemma lt_of_pred {a b : ℕ} (h : Pred preds a b) : b < preds.length := by
  by_contra hlt
  rw [Pred, List.getD_eq_getElem?_getD, List.getElem?_eq_none (by omega)] at h
  cases h

/-- The blocks a search reaches are blocks, among them where a run can start and what follows on a
block reached. -/
lemma reachable_spec (hp : PredsOk f preds) :
    (∀ b ∈ reachable f preds, b < f.blocks.length) ∧ (∀ b ∈ roots f, b ∈ reachable f preds) ∧
      ∀ a b, a ∈ reachable f preds → Pred preds a b → b ∈ reachable f preds := by
  have hnever : (Explore.run (fun b => some (succsOf preds b))
      (Explore.measure (fun b => some (succsOf preds b)) preds.length
        { stack := (roots f).reverse }) { stack := (roots f).reverse }).failed = false := by
    refine whileSome_invariant (fun s : Explore ℕ => s.failed = false) ?_ _ rfl
    intro s s' hs hr
    obtain ⟨-, x, rest, -, ⟨-, rfl⟩ | ⟨-, hnone, -⟩ | ⟨-, ys, -, rfl⟩⟩ := Explore.round_cases hr
    · exact hs
    · cases hnone
    · exact hs
  obtain ⟨-, hlt, hclosed⟩ := @Explore.run_spec (fun b => some (succsOf preds b))
    (roots f).reverse preds.length _
    (fun x hx => hp.length ▸ hp.roots x (List.mem_reverse.mp hx))
    (fun x ys _ hys y hy => (mem_succsOf.mp (Option.some.inj hys ▸ hy)).1) le_rfl
  obtain ⟨hroots, hnext⟩ := hclosed hnever
  refine ⟨fun b hb => hp.length ▸ hlt b hb, fun b hb => hroots b (List.mem_reverse.mpr hb),
    fun a b ha hab => ?_⟩
  obtain ⟨ys, hys, hall⟩ := hnext a ha
  exact hall b (Option.some.inj hys ▸ mem_succsOf.mpr ⟨lt_of_pred hab, hab⟩)

/-- A path from the entry goes through blocks that can be reached. -/
lemma reachable_of_path (hp : PredsOk f preds) {b : ℕ} {π : List ℕ}
    (h : PathFrom (Pred preds) 0 (b :: π)) : b ∈ reachable f preds := by
  obtain ⟨-, hroots, hnext⟩ := reachable_spec hp
  induction π generalizing b with
  | nil =>
    cases h
    exact hroots 0 (by simp [roots])
  | cons a π ih =>
    cases h with
    | step h hab => exact hnext a b (ih h) hab

/-! ## The starts a plan looks at -/

/-- The sources a start merges: one for each predecessor, all of which can be reached. -/
lemma sourcesOf_eq_some {b : ℕ} {incoming : List (ℕ × Source)}
    (h : sourcesOf preds live r b = some incoming) :
    (incoming.map Prod.fst).Nodup ∧ (∀ q, q ∈ incoming.map Prod.fst ↔ Pred preds q b) ∧
      incoming ≠ [] ∧ ∀ p ∈ incoming, p.2 = onEdge r p.1 b ∧ p.1 ∈ live := by
  unfold sourcesOf at h
  dsimp only at h
  split at h
  · cases h
  · rename_i hcond
    simp only [Bool.or_eq_true, List.isEmpty_iff, List.any_eq_true, not_or, not_exists, not_and,
      decide_eq_true_eq, not_not] at hcond
    obtain rfl := Option.some.inj h
    have hfst : (((preds.getD b []).insertionSort (· ≤ ·)).dedup.map
        fun q => (q, onEdge r q b)).map Prod.fst =
        ((preds.getD b []).insertionSort (· ≤ ·)).dedup := by
      rw [List.map_map]
      exact List.map_id _
    refine ⟨?_, fun q => ?_, by simpa using hcond.1, fun p hp => ?_⟩
    · rw [hfst]
      exact List.nodup_dedup _
    · rw [hfst, List.mem_dedup, List.mem_insertionSort, Pred]
    · obtain ⟨q, hq, rfl⟩ := List.mem_map.mp hp
      exact ⟨rfl, hcond.2 q hq⟩

/-- The starts a plan looks at, each once, with the sources they merge: those the reads ask for, and
those the sources ask for. -/
structure NodesOk (preds : List (List ℕ)) (live : List ℕ) (r : Redefined) (reads : List Read)
    (nodes : List (ℕ × List (ℕ × Source))) : Prop where
  nodup : (nodes.map Prod.fst).Nodup
  sources : ∀ node ∈ nodes, sourcesOf preds live r node.1 = some node.2
  reads : ∀ rd ∈ reads, ∀ e, rd.src = .entry e → e ∈ nodes.map Prod.fst
  closed : ∀ node ∈ nodes, ∀ p ∈ node.2, ∀ e, p.2 = .entry e → e ∈ nodes.map Prod.fst

lemma wanted_eq_some {s : Source} {b : ℕ} : wanted s = some b ↔ s = .entry b := by
  cases s <;> simp [wanted]

lemma eq_of_onEdge {q b e : ℕ} (h : onEdge r q b = .entry e) : e = q := by
  unfold onEdge at h
  split at h
  · cases h
  · split at h
    · cases h
    · exact (Src.entry.inj h).symm

lemma exists_of_nextOf {x y : ℕ} {ys : List ℕ} (hys : nextOf preds live r x = some ys) :
    ∃ incoming, sourcesOf preds live r x = some incoming ∧
      (y ∈ ys ↔ ∃ p ∈ incoming, p.2 = .entry y) := by
  obtain ⟨incoming, hin, rfl⟩ := Option.map_eq_some_iff.mp hys
  refine ⟨incoming, hin, ?_⟩
  simp only [List.mem_filterMap, wanted_eq_some]

/-- The search for the starts looks at each once, and where it does not fail at all it needs. -/
lemma explored_spec {reads : List Read} (hlive : ∀ b ∈ live, b < preds.length)
    (hreads : ∀ rd ∈ reads, ∀ e, rd.src = .entry e → e < preds.length) :
    (explored preds live r reads).seen.Nodup ∧ ((explored preds live r reads).failed = false →
      (∀ rd ∈ reads, ∀ e, rd.src = .entry e → e ∈ (explored preds live r reads).seen) ∧
      ∀ b ∈ (explored preds live r reads).seen, ∃ incoming,
        sourcesOf preds live r b = some incoming ∧
        ∀ p ∈ incoming, ∀ e, p.2 = .entry e → e ∈ (explored preds live r reads).seen) := by
  have hroot : ∀ x, x ∈ (reads.filterMap fun rd => wanted rd.src).reverse ↔
      ∃ rd ∈ reads, rd.src = .entry x := by
    intro x
    simp only [List.mem_reverse, List.mem_filterMap, wanted_eq_some]
  obtain ⟨hnodup, -, hclosed⟩ := @Explore.run_spec (nextOf preds live r)
    (reads.filterMap fun rd => wanted rd.src).reverse preds.length _
    (fun x hx => by
      obtain ⟨rd, hrd, he⟩ := (hroot x).mp hx
      exact hreads rd hrd x he)
    (fun x ys _ hys y hy => by
      obtain ⟨incoming, hin, hmem⟩ := exists_of_nextOf hys
      obtain ⟨p, hp, hpy⟩ := hmem.mp hy
      obtain ⟨hsrc, hpl⟩ := (sourcesOf_eq_some hin).2.2.2 p hp
      rw [eq_of_onEdge (hsrc.symm.trans hpy)]
      exact hlive p.1 hpl) le_rfl
  refine ⟨hnodup, fun hfailed => ?_⟩
  obtain ⟨hroots, hlooked⟩ := hclosed hfailed
  refine ⟨fun rd hrd e he => hroots e ((hroot e).mpr ⟨rd, hrd, he⟩), fun b hb => ?_⟩
  obtain ⟨ys, hys, hall⟩ := hlooked b hb
  obtain ⟨incoming, hin, -⟩ := @exists_of_nextOf _ _ _ b 0 ys hys
  refine ⟨incoming, hin, fun p hp e he => hall e ?_⟩
  obtain ⟨incoming', hin', hmem⟩ := @exists_of_nextOf _ _ _ b e ys hys
  obtain rfl := Option.some.inj (hin.symm.trans hin')
  exact hmem.mpr ⟨p, hp, he⟩

/-- The starts are looked at once each, and all that are needed are. -/
lemma nodesOf_spec {reads : List Read} {nodes : List (ℕ × List (ℕ × Source))}
    (hlive : ∀ b ∈ live, b < preds.length)
    (hreads : ∀ rd ∈ reads, ∀ e, rd.src = .entry e → e < preds.length)
    (h : nodesOf preds live r reads = some nodes) : NodesOk preds live r reads nodes := by
  obtain ⟨hnodup, hclosed⟩ := explored_spec (r := r) hlive hreads
  unfold nodesOf at h
  dsimp only at h
  split at h
  · cases h
  · rename_i hfailed
    obtain rfl := Option.some.inj h
    obtain ⟨hroots, hlooked⟩ := hclosed (by simpa using hfailed)
    have hkeys : ((((explored preds live r reads).seen.insertionSort (· ≤ ·)).map fun b =>
        (b, (sourcesOf preds live r b).getD [])).map Prod.fst) =
        (explored preds live r reads).seen.insertionSort (· ≤ ·) := by
      rw [List.map_map]
      exact List.map_id _
    refine ⟨?_, fun node hnode => ?_, fun rd hrd e he => ?_, fun node hnode p hp e he => ?_⟩
    · rw [hkeys]
      exact (List.perm_insertionSort _ _).nodup_iff.mpr hnodup
    · obtain ⟨b, hb, rfl⟩ := List.mem_map.mp hnode
      obtain ⟨incoming, hin, -⟩ := hlooked b ((List.mem_insertionSort _).mp hb)
      simp [hin]
    · rw [hkeys, List.mem_insertionSort]
      exact hroots rd hrd e he
    · obtain ⟨b, hb, rfl⟩ := List.mem_map.mp hnode
      obtain ⟨incoming, hin, hall⟩ := hlooked b ((List.mem_insertionSort _).mp hb)
      rw [hkeys, List.mem_insertionSort]
      exact hall p (by simpa [hin] using hp) e he

/-! ## Starts equal to one source -/

/-- The sources after the starts found so far are merged, the last one first. -/
def merged : List (ℕ × Source) → Source → Source
  | [] => id
  | (b, s) :: same => merge (merged same) b s

/-- The starts found equal to one source: each once, with a source the earlier ones leave and which
is not its own. -/
inductive SameOk : List (ℕ × Source) → Prop
  | nil : SameOk []
  | cons {b : ℕ} {s : Source} {same : List (ℕ × Source)} : SameOk same → same.lookup b = none →
      resolveStep same s = none → s ≠ .entry b → SameOk ((b, s) :: same)

/-- More starts resolve no fewer sources. -/
lemma resolveStep_cons {b : ℕ} {s t u : Source} {same : List (ℕ × Source)}
    (hb : same.lookup b = none) (h : resolveStep same t = some u) :
    resolveStep ((b, s) :: same) t = some u := by
  cases t with
  | val v => cases h
  | entry c =>
    have hne : c ≠ b := by
      rintro rfl
      rw [resolveStep, hb] at h
      cases h
    rw [resolveStep, List.lookup_cons, beq_false_of_ne hne]
    exact h

/-- Looking starts up one after another merges them all, in no more rounds than there are. -/
lemma exists_rounds {same : List (ℕ × Source)} (h : SameOk same) (t : Source) :
    ∃ k ≤ same.length, Rounds (resolveStep same) k t (merged same t) ∧
      resolveStep same (merged same t) = none := by
  induction h with
  | nil => exact ⟨0, le_rfl, .refl _, by cases t <;> rfl⟩
  | @cons b s same hok hb hs hne ih =>
    obtain ⟨k, hk, hrounds, hdone⟩ := ih
    have hmono : ∀ {k t u}, Rounds (resolveStep same) k t u →
        Rounds (resolveStep ((b, s) :: same)) k t u := by
      intro k t u hr
      induction hr with
      | refl => exact .refl _
      | head hstep _ ih => exact .head (resolveStep_cons hb hstep) ih
    have hcons : ∀ {u : Source}, resolveStep same u = none → u ≠ .entry b →
        resolveStep ((b, s) :: same) u = none := by
      intro u hu hub
      cases u with
      | val v => rfl
      | entry c =>
        have hcb : c ≠ b := fun h => hub (h ▸ rfl)
        rw [resolveStep, List.lookup_cons, beq_false_of_ne hcb]
        exact hu
    rw [merged, merge]
    by_cases ht : merged same t = .entry b
    · rw [if_pos ht]
      refine ⟨k + 1, by simpa using hk, (hmono hrounds).trans (.one ?_), hcons hs hne⟩
      rw [ht, resolveStep, List.lookup_cons]
      simp
    · rw [if_neg ht]
      exact ⟨k, by simp; omega, hmono hrounds, hcons hdone ht⟩

lemma resolve_eq {same : List (ℕ × Source)} (h : SameOk same) (t : Source) :
    resolve same t = merged same t := by
  obtain ⟨k, hk, hrounds, hdone⟩ := exists_rounds h t
  exact hrounds.whileSome_eq hdone (by omega)

lemma merged_of_resolveStep {same : List (ℕ × Source)} (h : SameOk same) {t : Source}
    (ht : resolveStep same t = none) : merged same t = t := by
  rw [← resolve_eq h, resolve, whileSome_of_none ht]

lemma merged_entry {same : List (ℕ × Source)} (h : SameOk same) {b : ℕ}
    (hb : same.lookup b = none) : merged same (.entry b) = .entry b :=
  merged_of_resolveStep h hb

lemma merged_merged {same : List (ℕ × Source)} (h : SameOk same) (t : Source) :
    merged same (merged same t) = merged same t ∧ resolveStep same (merged same t) = none := by
  obtain ⟨k, -, -, hdone⟩ := exists_rounds h t
  exact ⟨merged_of_resolveStep h hdone, hdone⟩

/-- The values an item's definitions can have. -/
def values (r : Redefined) : List ℕ := r.value :: r.edges.map fun e => e.2.2

/-- What an edge brings is a value of the item, or what reaches its source. -/
lemma onEdge_cases (r : Redefined) (q b : ℕ) :
    (∃ v ∈ values r, onEdge r q b = .val v) ∨ onEdge r q b = .entry q ∧ q ∉ r.home := by
  unfold onEdge
  split
  · rename_i e he
    exact .inl ⟨_, List.mem_cons_of_mem _ (List.mem_map_of_mem (List.mem_of_find?_eq_some he)), rfl⟩
  · split
    · exact .inl ⟨_, (.head _), rfl⟩
    · rename_i hhome
      exact .inr ⟨rfl, hhome⟩

/-- A source names a value of the item, or a start that is looked at, which is outside its home. -/
def Source.Known (r : Redefined) (nodes : List (ℕ × List (ℕ × Source))) : Source → Prop
  | .val v => v ∈ values r
  | .entry e => e ∈ nodes.map Prod.fst ∧ e ∉ r.home

/-- The merging of the starts found so far is right on every path, and gives a start that is looked
at a name that is known. -/
structure Merged (preds : List (List ℕ)) (r : Redefined) (nodes : List (ℕ × List (ℕ × Source)))
    (same : List (ℕ × Source)) : Prop where
  ok : SameOk same
  faithful : Faithful (Pred preds) 0 (carries r) (merged same)
  known : ∀ s : Source, s.Known r nodes → (merged same s).Known r nodes

lemma merged_nil {nodes : List (ℕ × List (ℕ × Source))} : Merged preds r nodes [] :=
  ⟨.nil, faithful_id, fun _ h => h⟩

/-- The sources of a start that is looked at are known. -/
lemma NodesOk.known {reads : List Read} {nodes : List (ℕ × List (ℕ × Source))}
    (hn : NodesOk preds live r reads nodes) {node : ℕ × List (ℕ × Source)} (hnode : node ∈ nodes)
    {p : ℕ × Source} (hp : p ∈ node.2) : p.2.Known r nodes := by
  have hsrc := ((sourcesOf_eq_some (hn.sources node hnode)).2.2.2 p hp).1
  rcases onEdge_cases r p.1 node.1 with ⟨v, hv, h⟩ | ⟨h, hhome⟩
  · rw [hsrc, h]
    exact hv
  · have hin := hn.closed node hnode p hp p.1 (hsrc.trans h)
    rw [hsrc, h]
    exact ⟨hin, hhome⟩

lemma merged_val {same : List (ℕ × Source)} (h : SameOk same) (v : ℕ) :
    merged same (.val v) = .val v := merged_of_resolveStep h rfl

/-- Looking at one start keeps that. -/
lemma Merged.mergeNode {reads : List Read} {nodes : List (ℕ × List (ℕ × Source))}
    (hn : NodesOk preds live r reads nodes) {st st' : List (ℕ × Source) × Bool}
    (h : Merged preds r nodes st.1) {node : ℕ × List (ℕ × Source)} (hnode : node ∈ nodes)
    (hst : mergeNode st node = some st') : Merged preds r nodes st'.1 := by
  unfold Repair.mergeNode at hst
  split at hst
  · exact Option.some.inj hst ▸ h
  · rename_i hnew
    have hb : st.1.lookup node.1 = none := Option.not_isSome_iff_eq_none.mp hnew
    split at hst
    · cases hst
    · rename_i s hdistinct
      obtain rfl := Option.some.inj hst
      -- Every source of the start is `s`, or the start itself.
      have hall : ∀ p ∈ node.2, merged st.1 p.2 = s ∨ merged st.1 p.2 = .entry node.1 := by
        intro p hp
        by_cases hself : resolve st.1 p.2 = .entry node.1
        · exact .inr (resolve_eq h.ok _ ▸ hself)
        · have hmem : resolve st.1 p.2 ∈ distinct st.1 node := by
            rw [distinct, List.mem_dedup]
            exact List.mem_filter.mpr ⟨List.mem_map_of_mem hp, by simpa using hself⟩
          rw [hdistinct, List.mem_singleton, resolve_eq h.ok] at hmem
          exact .inl hmem
      have hs : s ∈ distinct st.1 node := by simp [hdistinct]
      rw [distinct, List.mem_dedup] at hs
      obtain ⟨hs, hne⟩ := List.mem_filter.mp hs
      obtain ⟨p, hp, rfl⟩ := List.mem_map.mp hs
      rw [resolve_eq h.ok] at hall hne ⊢
      have hne : merged st.1 p.2 ≠ .entry node.1 := by simpa using hne
      obtain ⟨hfix, hstep⟩ := merged_merged h.ok p.2
      obtain ⟨-, hpred, -, hsrc⟩ := sourcesOf_eq_some (hn.sources node hnode)
      refine ⟨.cons h.ok hb hstep hne, ?_, fun s hs => ?_⟩
      · refine h.faithful.merge (merged_val h.ok) (merged_entry h.ok hb) hfix hne fun q hq => ?_
        obtain ⟨p', hp', rfl⟩ := List.mem_map.mp ((hpred q).mpr hq)
        rw [edgeSrc_carries, ← (hsrc p' hp').1]
        exact hall p' hp'
      · rw [merged, merge]
        split
        · exact h.known _ (hn.known hnode hp)
        · exact h.known s hs
    · exact Option.some.inj hst ▸ h

/-- So does going over all of them. -/
lemma Merged.mergeAll {reads : List Read} {nodes : List (ℕ × List (ℕ × Source))}
    (hn : NodesOk preds live r reads nodes) {fuel : ℕ} {same same' : List (ℕ × Source)}
    (h : Merged preds r nodes same) (hall : mergeAll nodes fuel same = some same') :
    Merged preds r nodes same' := by
  have hround : ∀ (l : List (ℕ × List (ℕ × Source))) st st', (∀ node ∈ l, node ∈ nodes) →
      Merged preds r nodes st.1 → l.foldlM Repair.mergeNode st = some st' →
      Merged preds r nodes st'.1 := by
    intro l
    induction l with
    | nil => intro st st' _ hst hl; exact Option.some.inj hl ▸ hst
    | cons node l ih =>
      intro st st' hmem hst hl
      obtain ⟨st₁, h₁, hl⟩ := Option.bind_eq_some_iff.mp hl
      exact ih st₁ st' (fun n hn => hmem n (.tail _ hn))
        (hst.mergeNode hn (hmem node (by simp)) h₁) hl
  induction fuel generalizing same with
  | zero => exact Option.some.inj hall ▸ h
  | succ fuel ih =>
    rw [Repair.mergeAll] at hall
    split at hall
    · cases hall
    · rename_i same₁ changed hfold
      have h₁ := hround nodes _ _ (fun _ hn => hn) h hfold
      split at hall
      · exact ih h₁ hall
      · exact Option.some.inj hall ▸ h₁

/-! ## The plan of one item -/

/-- The reads of an item: of instructions outside its home, of phis over an edge from outside, and at
the ends of blocks outside, each with what reaches it. -/
inductive Asked (f : FunctionSsa) (live : List ℕ) (r : Redefined) : Read → Prop
  | operand {i b : ℕ} {inst : Inst} : b ∈ live → InBlock f i b → f.insts[i]? = some inst →
      inst.isPhi = false → b ∉ r.home → r.value ∈ inst.operands → Asked f live r (.operand i (.entry b))
  | incoming {i b q : ℕ} {incoming : List (ℕ × ℕ)} {kind : LoadKind} : b ∈ live → InBlock f i b →
      f.insts[i]? = some (.phi incoming kind) → (q, r.value) ∈ incoming → q ∉ r.home → q ∈ live →
      Asked f live r (.incoming i q (onEdge r q b))
  | atEnd {b : ℕ} {blk : Block} : b ∈ live → f.blocks[b]? = some blk → b ∉ r.home →
      (blk.exitAcc = r.value ∨ r.value ∈ blk.terminator.operands) →
      Asked f live r (.atEnd b (.entry b))

/-- The reads a plan collects of an instruction. -/
lemma mem_readsOfInst {b i : ℕ} {inst : Inst} {rd : Read} (hb : b ∈ live) (hi : InBlock f i b)
    (hinst : f.insts[i]? = some inst) (h : rd ∈ readsOfInst live r b i inst) :
    Asked f live r rd := by
  unfold readsOfInst at h
  split at h
  · obtain ⟨p, hp, h⟩ := List.mem_filterMap.mp h
    split at h
    · cases h
    · rename_i hcond
      push Not at hcond
      obtain rfl := Option.some.inj h
      obtain ⟨hvalue, hhome, hlive⟩ := hcond
      exact .incoming hb hi hinst (hvalue ▸ hp) hhome hlive
  · rename_i hphi
    split at h
    · cases h
    · rename_i hhome
      split at h
      · rename_i hreads
        obtain rfl := List.mem_singleton.mp h
        refine .operand hb hi hinst ?_ hhome hreads
        cases inst <;> first | rfl | exact absurd rfl (hphi _ _)
      · cases h

/-- A plan collects the reads. -/
lemma mem_readsOf {rd : Read} : rd ∈ readsOf f live r ↔ Asked f live r rd := by
  constructor
  · intro h
    obtain ⟨⟨blk, b⟩, hp, h⟩ := List.mem_flatMap.mp h
    have hblk := List.mem_zipIdx_iff_getElem?.mp hp
    dsimp only at hblk h
    split at h
    · rename_i hb
      unfold readsOfBlock at h
      rcases List.mem_append.mp h with h | h
      · obtain ⟨i, hi, h⟩ := List.mem_flatMap.mp h
        cases hinst : f.insts[i]? with
        | none => simp [hinst] at h
        | some inst =>
          rw [hinst, Option.map_some, Option.getD_some] at h
          exact mem_readsOfInst hb ⟨blk, hblk, InstRange.mem_toList.mp hi⟩ hinst h
      · split at h
        · cases h
        · rename_i hhome
          split at h
          · rename_i hreads
            obtain rfl := List.mem_singleton.mp h
            exact .atEnd hb hblk hhome hreads
          · cases h
    · cases h
  · intro h
    cases h with
    | @operand i b inst hb hi hinst hphi hhome hreads =>
      obtain ⟨blk, hblk, hin⟩ := hi
      refine List.mem_flatMap.mpr ⟨(blk, b), List.mem_zipIdx_iff_getElem?.mpr hblk, ?_⟩
      rw [if_pos hb, readsOfBlock, List.mem_append]
      refine .inl (List.mem_flatMap.mpr ⟨i, InstRange.mem_toList.mpr hin, ?_⟩)
      rw [hinst, Option.map_some, Option.getD_some]
      cases inst <;> first | (cases hphi; done) | simp [readsOfInst, hhome, hreads]
    | @incoming i b q inc kind hb hi hinst hq hhome hlive =>
      obtain ⟨blk, hblk, hin⟩ := hi
      refine List.mem_flatMap.mpr ⟨(blk, b), List.mem_zipIdx_iff_getElem?.mpr hblk, ?_⟩
      rw [if_pos hb, readsOfBlock, List.mem_append]
      refine .inl (List.mem_flatMap.mpr ⟨i, InstRange.mem_toList.mpr hin, ?_⟩)
      rw [hinst, Option.map_some, Option.getD_some, readsOfInst]
      exact List.mem_filterMap.mpr ⟨(q, r.value), hq, by simp [hhome, hlive]⟩
    | @atEnd b blk hb hblk hhome hreads =>
      refine List.mem_flatMap.mpr ⟨(blk, b), List.mem_zipIdx_iff_getElem?.mpr hblk, ?_⟩
      rw [if_pos hb, readsOfBlock, List.mem_append, if_neg hhome, if_pos hreads]
      exact .inr (List.mem_singleton_self _)

lemma entry_lt_of_readsOf (hlive : ∀ b ∈ live, b < f.blocks.length) :
    ∀ rd ∈ readsOf f live r, ∀ e, rd.src = .entry e → e < f.blocks.length := by
  intro rd hrd e he
  cases mem_readsOf.mp hrd with
  | operand hb => exact Src.entry.inj he ▸ hlive _ hb
  | incoming _ _ _ _ _ hq => exact (eq_of_onEdge he) ▸ hlive _ hq
  | atEnd hb => exact Src.entry.inj he ▸ hlive _ hb

/-- What the plan of an item is: the starts looked at, those of them found equal to one source, a
phi for each other start, and the reads with their sources merged. -/
structure Planned (f : FunctionSsa) (preds : List (List ℕ)) (live : List ℕ) (r : Redefined)
    (p : Plan) (nodes : List (ℕ × List (ℕ × Source))) (same : List (ℕ × Source)) : Prop where
  looked : NodesOk preds live r (readsOf f live r) nodes
  sound : Merged preds r nodes same
  phis : p.phis = (nodes.filter fun node => (same.lookup node.1).isNone).map fun node =>
    (node.1, node.2.map fun q => (q.1, merged same q.2))
  reads : p.reads = (readsOf f live r).map (Read.mapSrc (merged same))

/-- The plan of an item. -/
lemma planOne_spec (hp : PredsOk f preds) {p : Plan}
    (h : planOne f preds (reachable f preds) r = some p) :
    ∃ nodes same, Planned f preds (reachable f preds) r p nodes same := by
  have hlive := (reachable_spec hp).1
  simp only [planOne, bind, Option.bind_eq_some_iff, pure] at h
  obtain ⟨nodes, hnodes, same, hsame, h⟩ := h
  obtain rfl := Option.some.inj h
  have hn : NodesOk preds (reachable f preds) r (readsOf f (reachable f preds) r) nodes :=
    nodesOf_spec (hp.length ▸ hlive) (hp.length ▸ entry_lt_of_readsOf hlive) hnodes
  have hm : Merged preds r nodes same := merged_nil.mergeAll hn hsame
  have hres : resolve same = merged same := funext (resolve_eq hm.ok)
  exact ⟨nodes, same, hn, hm, by rw [hres], by rw [hres]⟩

section

variable {p : Plan} {nodes : List (ℕ × List (ℕ × Source))} {same : List (ℕ × Source)}

/-- The phis of a plan. -/
lemma Planned.mem_phis (h : Planned f preds live r p nodes same) {phi : ℕ × List (ℕ × Source)} :
    phi ∈ p.phis ↔ ∃ node ∈ nodes, same.lookup node.1 = none ∧
      phi = (node.1, node.2.map fun q => (q.1, merged same q.2)) := by
  rw [h.phis, List.mem_map]
  constructor
  · rintro ⟨node, hnode, rfl⟩
    obtain ⟨hnode, hnone⟩ := List.mem_filter.mp hnode
    exact ⟨node, hnode, Option.isNone_iff_eq_none.mp hnone, rfl⟩
  · rintro ⟨node, hnode, hnone, rfl⟩
    exact ⟨node, List.mem_filter.mpr ⟨hnode, by simp [hnone]⟩, rfl⟩

lemma Planned.nodup_phis (h : Planned f preds live r p nodes same) :
    (p.phis.map Prod.fst).Nodup := by
  have hkeys : p.phis.map Prod.fst =
      (nodes.filter fun node => (same.lookup node.1).isNone).map Prod.fst := by
    rw [h.phis, List.map_map]
    rfl
  rw [hkeys]
  exact h.looked.nodup.sublist (List.filter_sublist.map _)

lemma Planned.phi_lt (h : Planned f preds live r p nodes same) (hp : PredsOk f preds) :
    ∀ b ∈ p.phis.map Prod.fst, b < f.blocks.length := by
  intro b hb
  obtain ⟨phi, hphi, rfl⟩ := List.mem_map.mp hb
  obtain ⟨node, hnode, -, rfl⟩ := h.mem_phis.mp hphi
  obtain ⟨-, hpred, hne, -⟩ := sourcesOf_eq_some (h.looked.sources node hnode)
  obtain ⟨q, hq⟩ := List.exists_mem_of_ne_nil _ hne
  rw [← hp.length]
  exact lt_of_pred ((hpred q.1).mp (List.mem_map_of_mem hq))

lemma Planned.phi_of_entry (h : Planned f preds live r p nodes same) {e : ℕ}
    (he : e ∈ nodes.map Prod.fst) (hself : merged same (.entry e) = .entry e) :
    ∃ incoming, sourcesOf preds live r e = some incoming ∧
      (e, incoming.map fun q => (q.1, merged same q.2)) ∈ p.phis := by
  obtain ⟨node, hnode, rfl⟩ := List.mem_map.mp he
  have hnone : same.lookup node.1 = none := by
    have := (merged_merged h.sound.ok (.entry node.1)).2
    rwa [hself] at this
  exact ⟨node.2, h.looked.sources node hnode, h.mem_phis.mpr ⟨node, hnode, hnone, rfl⟩⟩

/-- What a known source is merged into is a value of the item, or a start with a phi. -/
lemma Planned.merged_cases (h : Planned f preds live r p nodes same) {s : Source}
    (hs : s.Known r nodes) : (∃ v ∈ values r, merged same s = .val v) ∨
      ∃ e ∈ p.phis.map Prod.fst, merged same s = .entry e := by
  have hknown := h.sound.known s hs
  have hfix := (merged_merged h.sound.ok s).1
  cases hm : merged same s with
  | val v =>
    rw [hm] at hknown
    exact .inl ⟨v, hknown, rfl⟩
  | entry e =>
    rw [hm] at hknown hfix
    obtain ⟨incoming, -, hphi⟩ := h.phi_of_entry hknown.1 hfix
    exact .inr ⟨e, List.mem_map_of_mem hphi, rfl⟩

/-- The source of a read is known. -/
lemma Planned.known_of_asked (h : Planned f preds live r p nodes same) {rd : Read}
    (hrd : Asked f live r rd) : rd.src.Known r nodes := by
  have hmem := mem_readsOf.mpr hrd
  cases hrd with
  | operand _ _ _ _ hhome _ => exact ⟨h.looked.reads _ hmem _ rfl, hhome⟩
  | atEnd _ _ hhome _ => exact ⟨h.looked.reads _ hmem _ rfl, hhome⟩
  | @incoming i b q inc kind hb hi hinst hq hhome hlive =>
    rcases onEdge_cases r q b with ⟨v, hv, hedge⟩ | ⟨hedge, hhome⟩
    · exact show Source.Known r nodes (onEdge r q b) from hedge ▸ hv
    · have hin := h.looked.reads _ hmem q hedge
      exact show Source.Known r nodes (onEdge r q b) from hedge ▸ ⟨hin, hhome⟩

end

/-- The plan of each item. -/
lemma plan_spec (hp : PredsOk f preds) {items : List Redefined} {plans : List Plan}
    (h : plan f preds items = some plans) : plans.length = items.length ∧
      ∀ (k : ℕ) r p, items[k]? = some r → plans[k]? = some p →
        ∃ nodes same, Planned f preds (reachable f preds) r p nodes same := by
  unfold plan at h
  induction items generalizing plans with
  | nil =>
    rw [List.mapM_nil] at h
    obtain rfl := Option.some.inj h
    exact ⟨rfl, fun k r p hk => by simp at hk⟩
  | cons r items ih =>
    simp only [List.mapM_cons, bind, Option.bind_eq_some_iff, pure, Option.some.injEq] at h
    obtain ⟨p, hplan, plans, hrest, rfl⟩ := h
    obtain ⟨hlen, hall⟩ := ih hrest
    refine ⟨by simp [hlen], fun k r' p' hk hk' => ?_⟩
    cases k with
    | zero =>
      obtain rfl := Option.some.inj hk
      obtain rfl := Option.some.inj hk'
      exact planOne_spec hp hplan
    | succ k => exact hall k r' p' hk hk'

end

end Repair

end Badc
