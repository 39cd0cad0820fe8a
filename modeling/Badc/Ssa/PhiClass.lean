import Badc.Lib.UnionFind
import Badc.Ssa.Operands

/-!
# Phi-congruence classes

`src/c5/codegen/ssa/phi_class.rs`: the result of a phi and its incomes are put in one class where no two
members of the joint class interfere, so that the allocator can place a class in one location.  The
classes are a forest of parents; each root has the list of its members, and the members of the shorter
list are tested against the class of the longer one.
-/

namespace Badc.PhiClass

open UnionFind

/-- The interference graph over the values below `n`. -/
structure Interference (n : ℕ) where
  neighbors : ℕ → List ℕ
  lt : ∀ v < n, ∀ u ∈ neighbors v, u < n
  symm : ∀ u < n, ∀ v ∈ neighbors u, u ∈ neighbors v

/-- The parents of the values and the members of each root. -/
structure Classes where
  parent : ℕ → ℕ
  members : ℕ → List ℕ

/-- Whether a value of a list is in the class of a root; each is looked up, which compresses its path. -/
def scanNeighbors (n root : ℕ) : List ℕ → (ℕ → ℕ) → Bool × (ℕ → ℕ)
  | [], parent => (false, parent)
  | nb :: rest, parent =>
    let (r, parent) := find n parent nb
    if r = root then (true, parent) else scanNeighbors n root rest parent

/-- Whether a member of `a` interferes with a member of the class of a root. -/
def classesInterfere {n : ℕ} (ig : Interference n) (parent : ℕ → ℕ) (a : List ℕ) (root : ℕ) :
    Bool × (ℕ → ℕ) :=
  scanNeighbors n root (a.flatMap ig.neighbors) parent

/-- The register file of a value. -/
def fileOf (f : FunctionSsa) (v : ℕ) : Option Bool := f.insts[v]?.map producesFpResult

/-- Attach the class of `drop` to the class of `keep`, where they do not interfere. -/
def attach {n : ℕ} (ig : Interference n) (classes : Classes) (keep drop : ℕ) : Classes :=
  let (interfere, parent) := classesInterfere ig classes.parent (classes.members drop) keep
  if interfere then { classes with parent }
  else
    { parent := Function.update parent drop keep
      members := Function.update
        (Function.update classes.members keep (classes.members keep ++ classes.members drop)) drop [] }

/-- Join the classes of a phi and one of its incomes, where they do not interfere: the shorter list of
members is attached to the longer one. -/
def joinIncome (f : FunctionSsa) (ig : Interference f.insts.length) (idx : ℕ) (classes : Classes)
    (src : ℕ) : Classes :=
  let n := f.insts.length
  let (rr, parent) := find n classes.parent idx
  let (rs, parent) := find n parent src
  if rr = rs then { classes with parent }
  else if fileOf f idx ≠ fileOf f src then { classes with parent }
  else
    if (classes.members rs).length ≤ (classes.members rr).length then
      attach ig { classes with parent } rr rs
    else attach ig { classes with parent } rs rr

/-- The incomes of a phi that are values of the function. -/
def phiOperands (f : FunctionSsa) (idx : ℕ) : List ℕ :=
  match f.insts[idx]? with
  | some (.phi incoming _) =>
    (incoming.map Prod.snd).filter fun s => decide (s ≠ noValue) && decide (s < f.insts.length)
  | _ => []

/-- Join each phi with its incomes. -/
def buildClasses (f : FunctionSsa) (ig : Interference f.insts.length) : Classes :=
  (List.range f.insts.length).foldl
    (fun classes idx => (phiOperands f idx).foldl (joinIncome f ig idx) classes) ⟨id, fun v => [v]⟩

/-- The parents of the classes of a function. -/
def build (f : FunctionSsa) (ig : Interference f.insts.length) : ℕ → ℕ := (buildClasses f ig).parent

/-- Look up values one after the other. -/
def findAll (n : ℕ) (parent : ℕ → ℕ) (vs : List ℕ) : ℕ → ℕ :=
  vs.foldl (fun parent v => (find n parent v).2) parent

/-! ## What a join keeps -/

section

variable {f : FunctionSsa} {ig : Interference f.insts.length} {classes : Classes}
  {n idx src u v : ℕ} {parent root rank : ℕ → ℕ}

/-- An income of a phi of the same class. -/
def Income (f : FunctionSsa) (root : ℕ → ℕ) (u v : ℕ) : Prop := v ∈ phiOperands f u ∧ root u = root v

/-- Classes are sound: the parents are a forest with the members under their roots, and no two members
of a class interfere, live in different register files, or are not connected by incomes. -/
structure Sound (f : FunctionSsa) (ig : Interference f.insts.length) (classes : Classes)
    (root rank : ℕ → ℕ) : Prop where
  forest : Forest f.insts.length classes.parent root rank
  members : ∀ r < f.insts.length, root r = r → ∀ v,
    v ∈ classes.members r ↔ v < f.insts.length ∧ root v = r
  clean : ∀ u < f.insts.length, ∀ v < f.insts.length, u ≠ v → root u = root v → v ∉ ig.neighbors u
  sameFile : ∀ u < f.insts.length, ∀ v < f.insts.length, root u = root v → fileOf f u = fileOf f v
  connected : ∀ u < f.insts.length, ∀ v < f.insts.length, root u = root v →
    Relation.EqvGen (Income f root) u v

lemma lt_of_mem_phiOperands (h : src ∈ phiOperands f idx) : src < f.insts.length := by
  unfold phiOperands at h
  split at h
  · exact of_decide_eq_true (Bool.and_eq_true_iff.mp (List.mem_filter.mp h).2).2
  · exact absurd h List.not_mem_nil

/-- Looking up neighbors keeps the forest, and finds a neighbor in the class where there is one. -/
lemma scanNeighbors_spec {keep : ℕ} {l : List ℕ} (h : Forest n parent root rank)
    (hl : ∀ nb ∈ l, nb < n) : Forest n (scanNeighbors n keep l parent).2 root rank ∧
      ((scanNeighbors n keep l parent).1 = false → ∀ nb ∈ l, root nb ≠ keep) := by
  induction l generalizing parent with
  | nil => exact ⟨h, fun _ _ h => absurd h List.not_mem_nil⟩
  | cons nb rest ih =>
    obtain ⟨hroot, hforest⟩ := h.find_spec (hl nb (.head _))
    rw [scanNeighbors]
    dsimp only
    rw [hroot]
    split
    · exact ⟨hforest, fun h => Bool.noConfusion h⟩
    · rename_i hother
      obtain ⟨hforest', hrest⟩ := ih hforest fun nb' hnb' => hl nb' (.tail _ hnb')
      refine ⟨hforest', fun hnone nb' hnb' => ?_⟩
      rcases List.mem_cons.mp hnb' with rfl | hnb'
      · exact hother
      · exact hrest hnone nb' hnb'

lemma Sound.with_parent (h : Sound f ig classes root rank)
    (hforest : Forest f.insts.length parent root rank) :
    Sound f ig { classes with parent } root rank :=
  ⟨hforest, h.members, h.clean, h.sameFile, h.connected⟩

lemma eqvGen_joined {keep drop : ℕ} (h : Relation.EqvGen (Income f root) u v) :
    Relation.EqvGen (Income f (Forest.joined root keep drop)) u v :=
  h.mono fun _ _ hincome => ⟨hincome.1, by rw [Forest.joined, Forest.joined, hincome.2]⟩

/-- Joining two classes that do not interfere, over an income between them, leaves sound classes. -/
lemma Sound.join (h : Sound f ig classes root rank) {keep drop p q : ℕ}
    (hforest : Forest f.insts.length parent root rank) (hkeep : keep < f.insts.length)
    (hdrop : drop < f.insts.length) (hkeeproot : root keep = keep) (hdroproot : root drop = drop)
    (hne : keep ≠ drop) (hp : p < f.insts.length) (hq : q < f.insts.length) (hpq : q ∈ phiOperands f p)
    (hends : (root p = keep ∧ root q = drop) ∨ (root p = drop ∧ root q = keep))
    (hfile : fileOf f p = fileOf f q)
    (hclean : ∀ x ∈ classes.members drop, ∀ nb ∈ ig.neighbors x, root nb ≠ keep) :
    Sound f ig
      { parent := Function.update parent drop keep
        members := Function.update
          (Function.update classes.members keep (classes.members keep ++ classes.members drop)) drop [] }
      (Forest.joined root keep drop) fun v => if root v = drop then rank v + rank keep + 1 else rank v := by
  -- Two values of the joint class that were in different classes are in those of `keep` and `drop`.
  have hcases : ∀ u v, Forest.joined root keep drop u = Forest.joined root keep drop v →
      root u = root v ∨ (root u = keep ∧ root v = drop) ∨ (root u = drop ∧ root v = keep) := by
    intro u v huv
    unfold Forest.joined at huv
    split at huv
    · rename_i hu
      split at huv
      · rename_i hv
        exact .inl (hu.trans hv.symm)
      · exact .inr (.inr ⟨hu, huv.symm⟩)
    · rename_i hu
      split at huv
      · rename_i hv
        exact .inr (.inl ⟨huv, hv⟩)
      · exact .inl huv
  have hbridge : ∀ u < f.insts.length, ∀ v < f.insts.length, root u = keep → root v = drop →
      fileOf f u = fileOf f v ∧ v ∉ ig.neighbors u ∧ u ∉ ig.neighbors v ∧
        Relation.EqvGen (Income f (Forest.joined root keep drop)) u v := by
    intro u hu v hv huk hvd
    have hnot : u ∉ ig.neighbors v := fun hmem =>
      hclean v ((h.members drop hdrop hdroproot v).mpr ⟨hv, hvd⟩) u hmem huk
    have hjoined : Forest.joined root keep drop p = Forest.joined root keep drop q := by
      unfold Forest.joined
      rcases hends with ⟨hpk, hqd⟩ | ⟨hpd, hqk⟩
      · rw [hpk, hqd, if_neg hne, if_pos rfl]
      · rw [hpd, hqk, if_pos rfl, if_neg hne]
    have hedge : Relation.EqvGen (Income f (Forest.joined root keep drop)) p q :=
      .rel _ _ ⟨hpq, hjoined⟩
    refine ⟨?_, fun hmem => hnot (ig.symm u hu v hmem), hnot, ?_⟩
    · rcases hends with ⟨hpk, hqd⟩ | ⟨hpd, hqk⟩
      · rw [h.sameFile u hu p hp (huk.trans hpk.symm), hfile, h.sameFile q hq v hv (hqd.trans hvd.symm)]
      · rw [h.sameFile u hu q hq (huk.trans hqk.symm), ← hfile, h.sameFile p hp v hv (hpd.trans hvd.symm)]
    · rcases hends with ⟨hpk, hqd⟩ | ⟨hpd, hqk⟩
      · exact (eqvGen_joined (h.connected u hu p hp (huk.trans hpk.symm))).trans _ _ _
          (hedge.trans _ _ _ (eqvGen_joined (h.connected q hq v hv (hqd.trans hvd.symm))))
      · exact (eqvGen_joined (h.connected u hu q hq (huk.trans hqk.symm))).trans _ _ _
          ((hedge.symm _ _).trans _ _ _ (eqvGen_joined (h.connected p hp v hv (hpd.trans hvd.symm))))
  refine ⟨hforest.join hkeep hkeeproot hdroproot hne, fun r hr hroot v => ?_, fun u hu v hv huv hclass =>
    ?_, fun u hu v hv hclass => ?_, fun u hu v hv hclass => ?_⟩
  · have hrd : r ≠ drop := by
      rintro rfl
      rw [Forest.joined, if_pos hdroproot] at hroot
      exact hne hroot
    have hold : root r = r := by
      unfold Forest.joined at hroot
      split at hroot
      · rw [← hroot, hkeeproot]
      · exact hroot
    dsimp only
    rw [Function.update_of_ne hrd]
    by_cases hrk : r = keep
    · subst hrk
      rw [Function.update_self, List.mem_append, h.members r hr hold, h.members drop hdrop hdroproot,
        ← and_or_left]
      refine and_congr_right fun _ => ?_
      unfold Forest.joined
      by_cases hvd : root v = drop
      · simp [hvd]
      · simp [hvd]
    · rw [Function.update_of_ne hrk, h.members r hr hold]
      refine and_congr_right fun _ => ?_
      unfold Forest.joined
      by_cases hvd : root v = drop
      · rw [if_pos hvd, hvd]
        exact ⟨fun he => absurd he.symm hrd, fun he => absurd he.symm hrk⟩
      · rw [if_neg hvd]
  · rcases hcases u v hclass with hsame | ⟨huk, hvd⟩ | ⟨hud, hvk⟩
    · exact h.clean u hu v hv huv hsame
    · exact (hbridge u hu v hv huk hvd).2.1
    · exact (hbridge v hv u hu hvk hud).2.2.1
  · rcases hcases u v hclass with hsame | ⟨huk, hvd⟩ | ⟨hud, hvk⟩
    · exact h.sameFile u hu v hv hsame
    · exact (hbridge u hu v hv huk hvd).1
    · exact (hbridge v hv u hu hvk hud).1.symm
  · rcases hcases u v hclass with hsame | ⟨huk, hvd⟩ | ⟨hud, hvk⟩
    · exact eqvGen_joined (h.connected u hu v hv hsame)
    · exact (hbridge u hu v hv huk hvd).2.2.2
    · exact (hbridge v hv u hu hvk hud).2.2.2.symm

/-- Attaching the class of `drop` to the class of `keep`, where the scan finds no interference, leaves
sound classes; where it finds one, the classes are as they were. -/
lemma Sound.attach (h : Sound f ig classes root rank) {keep drop p q : ℕ}
    (hforest : Forest f.insts.length parent root rank) (hkeep : keep < f.insts.length)
    (hdrop : drop < f.insts.length) (hkeeproot : root keep = keep) (hdroproot : root drop = drop)
    (hne : keep ≠ drop) (hp : p < f.insts.length) (hpq : q ∈ phiOperands f p)
    (hends : (root p = keep ∧ root q = drop) ∨ (root p = drop ∧ root q = keep))
    (hfile : fileOf f p = fileOf f q) :
    ∃ root' rank', Sound f ig (attach ig { classes with parent } keep drop) root' rank' := by
  have hrange : ∀ nb ∈ (classes.members drop).flatMap ig.neighbors, nb < f.insts.length := by
    intro nb hnb
    obtain ⟨x, hx, hnb⟩ := List.mem_flatMap.mp hnb
    exact ig.lt x ((h.members drop hdrop hdroproot x).mp hx).1 nb hnb
  have hspec : Forest f.insts.length (scanNeighbors f.insts.length keep _ parent).2 root rank ∧ _ :=
    scanNeighbors_spec hforest hrange
  obtain ⟨hforest', hnone⟩ := hspec
  unfold PhiClass.attach classesInterfere
  dsimp only
  split
  · exact ⟨root, rank, h.with_parent hforest'⟩
  · rename_i hscan
    refine ⟨_, _, h.join hforest' hkeep hdrop hkeeproot hdroproot hne hp (lt_of_mem_phiOperands hpq) hpq
      hends hfile fun x hx nb hnb => ?_⟩
    exact hnone (Bool.eq_false_iff.mpr hscan) nb (List.mem_flatMap.mpr ⟨x, hx, hnb⟩)

/-- Joining a phi with an income keeps the classes sound. -/
lemma Sound.joinIncome (h : Sound f ig classes root rank) (hidx : idx < f.insts.length)
    (hsrc : src ∈ phiOperands f idx) :
    ∃ root' rank', Sound f ig (joinIncome f ig idx classes src) root' rank' := by
  have hsrclt := lt_of_mem_phiOperands hsrc
  obtain ⟨hrr, hforest⟩ := h.forest.find_spec hidx
  obtain ⟨hrs, hforest'⟩ := hforest.find_spec hsrclt
  have hrrroot := h.forest.root_root hidx
  have hrsroot := h.forest.root_root hsrclt
  unfold PhiClass.joinIncome
  dsimp only
  rw [hrr, hrs]
  split
  · exact ⟨root, rank, h.with_parent hforest'⟩
  · rename_i hne
    split
    · exact ⟨root, rank, h.with_parent hforest'⟩
    · rename_i hfile
      split
      · exact h.attach hforest' (h.forest.root_lt _ hidx) (h.forest.root_lt _ hsrclt) hrrroot hrsroot hne
          hidx hsrc (.inl ⟨rfl, rfl⟩) (not_not.mp hfile)
      · exact h.attach hforest' (h.forest.root_lt _ hsrclt) (h.forest.root_lt _ hidx) hrsroot hrrroot
          (Ne.symm hne) hidx hsrc (.inr ⟨rfl, rfl⟩) (not_not.mp hfile)

/-- The classes the construction starts with hold one value each. -/
lemma Sound.singletons : Sound f ig ⟨id, fun v => [v]⟩ id fun _ => 0 where
  forest := Forest.singletons _
  members r hr _ v := by
    rw [List.mem_singleton, id_eq]
    exact ⟨fun he => ⟨he ▸ hr, he⟩, fun h => h.2⟩
  clean _ _ _ _ hne he := absurd he hne
  sameFile _ _ _ _ he := congrArg (fileOf f) he
  connected _ _ _ _ he := by
    rw [id_eq, id_eq] at he
    exact he ▸ .refl _

lemma Sound.joinIncomes (h : Sound f ig classes root rank) (hidx : idx < f.insts.length)
    {srcs : List ℕ} (hsrcs : ∀ src ∈ srcs, src ∈ phiOperands f idx) :
    ∃ root' rank', Sound f ig (srcs.foldl (PhiClass.joinIncome f ig idx) classes) root' rank' := by
  induction srcs generalizing classes root rank with
  | nil => exact ⟨root, rank, h⟩
  | cons src rest ih =>
    obtain ⟨root', rank', h'⟩ := h.joinIncome hidx (hsrcs src (.head _))
    exact ih h' fun src' hmem => hsrcs src' (.tail _ hmem)

/-- The classes that are built are sound. -/
lemma sound_buildClasses (f : FunctionSsa) (ig : Interference f.insts.length) :
    ∃ root rank, Sound f ig (buildClasses f ig) root rank := by
  have hrun : ∀ idxs : List ℕ, (∀ idx ∈ idxs, idx < f.insts.length) → ∀ classes root rank,
      Sound f ig classes root rank → ∃ root' rank', Sound f ig (idxs.foldl
        (fun classes idx => (phiOperands f idx).foldl (PhiClass.joinIncome f ig idx) classes) classes)
        root' rank' := by
    intro idxs
    induction idxs with
    | nil => exact fun _ classes root rank h => ⟨root, rank, h⟩
    | cons idx rest ih =>
      intro hidxs classes root rank h
      obtain ⟨root', rank', h'⟩ := h.joinIncomes (hidxs idx (.head _)) fun _ hmem => hmem
      exact ih (fun idx' hmem => hidxs idx' (.tail _ hmem)) _ _ _ h'
  exact hrun _ (fun idx hidx => List.mem_range.mp hidx) _ _ _ Sound.singletons

lemma forest_findAll {vs : List ℕ} (h : Forest n parent root rank) (hvs : ∀ v ∈ vs, v < n) :
    Forest n (findAll n parent vs) root rank := by
  induction vs generalizing parent with
  | nil => exact h
  | cons v rest ih =>
    exact ih (h.find_spec (hvs v (.head _))).2 fun u hu => hvs u (.tail _ hu)

end

/-- **Phi-congruence classes stay free of interference.**  Whatever values were looked up before, a
lookup returns the root of its value, and over the values that share a root: no two distinct ones
interfere, all live in the same register file, and all are connected by the incomes of phis of the
class. -/
theorem build_sound (f : FunctionSsa) (ig : Interference f.insts.length) :
    ∃ root : ℕ → ℕ,
      (∀ vs : List ℕ, (∀ v ∈ vs, v < f.insts.length) → ∀ v < f.insts.length,
        (find f.insts.length (findAll f.insts.length (build f ig) vs) v).1 = root v) ∧
      ∀ u < f.insts.length, ∀ v < f.insts.length, root u = root v →
        (u ≠ v → v ∉ ig.neighbors u) ∧ fileOf f u = fileOf f v ∧
          Relation.EqvGen (Income f root) u v := by
  obtain ⟨root, rank, h⟩ := sound_buildClasses f ig
  refine ⟨root, fun vs hvs v hv => ((forest_findAll h.forest hvs).find_spec hv).1, fun u hu v hv hclass =>
    ⟨fun hne => h.clean u hu v hv hne hclass, h.sameFile u hu v hv hclass, h.connected u hu v hv hclass⟩⟩

end Badc.PhiClass
