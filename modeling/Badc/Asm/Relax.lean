import Badc.Asm.Measure

/-!
# Relaxing branches

A branch with a short form starts short and is lengthened, permanently, when the layout leaves its
target out of reach.  Each round either lengthens a branch or stops, so the layout it stops on is
one in which every short branch reaches.
-/

namespace Badc.Asm

/-! ## Names of a statement -/

/-- The location of a label of the code stream. -/
def LabelLoc.term : LabelLoc → AsmExprTerm
  | .text off => ⟨some (.text, off), .text off⟩
  | .deferred region off => ⟨some (.deferred region, off), .deferredText region off⟩

/-- What a name is resolved against: a measurement, the sink, the names given to the numeric
labels of the statement, and the labels of its code stream. -/
structure Names where
  measured : SectionLabelOffsets
  sink : AsmSectionSink
  numUnique : Text → Option Text
  labelOff : Text → Option LabelLoc

/-- The name a numeric label is renamed to, or the name itself. -/
def Names.renamed (n : Names) (t : Text) : Text := ((numericLabelDigits t).bind n.numUnique).getD t

/-- The leaf of a name the layout defines. -/
def sectionExprDefinedLeaf (n : Names) (t : Text) : Option AsmExprLeaf :=
  match n.measured.symbol t with
  | some v => some (.abs v)
  | none =>
    match n.labelOff t with
    | some loc => some (.loc loc.term)
    | none =>
      match n.measured.map (labelKey t) with
      | some (sk, off) => some (sectionLoc sk off (.symbol (n.renamed t)))
      | none =>
        if (numericLabelDigits t).isNone then
          (n.sink.labels t).map fun l => sectionLoc l.1 l.2 (.symbol t)
        else none

/-- A leaf reached through a chain of assignments, under the name that was written. -/
def leafNamed (leaf : AsmExprLeaf) (name : Text) : AsmExprLeaf :=
  match leaf with
  | .loc ⟨space, .symbol _⟩ => .loc ⟨space, .symbol name⟩
  | other => other

/-- Follow the chain of assignments to a name with a leaf, or to its end. -/
def aliasLeaf (n : Names) : ℕ → Text → Text × Option AsmExprLeaf
  | 0, cur => (cur, none)
  | k + 1, cur =>
    match n.measured.aliasOf cur with
    | none => (cur, none)
    | some next =>
      match sectionExprDefinedLeaf n next with
      | some leaf => (next, some leaf)
      | none => aliasLeaf n k next

/-- The leaf of a name in an expression inside section `key` at offset `here`. -/
def sectionExprLeaf (n : Names) (key : SectionKey) (here : ℤ) (t : Text) : Option AsmExprLeaf :=
  if t = [byte '.'] then some (sectionLoc key here (.ownSection (here % 2 ^ 32).toNat))
  else
    match sectionExprDefinedLeaf n t with
    | some leaf => some leaf
    | none =>
      match aliasLeaf n asmAliasDepthLimit t with
      | (_, some leaf) => some (leafNamed leaf t)
      | (cur, none) =>
        ((n.sink.sectionNamed cur).or (n.measured.sectionNamed cur)).map sectionStartLeaf

/-- What the expression target of an instruction field resolves to. -/
inductive AsmFieldTarget
  | abs (v : ℤ)
  | reloc (target : AsmSectionTarget) (addend : ℤ) (pcrel : Option Bool)
  deriving DecidableEq

/-- Resolve the expression target of a field at `place` of the section `key`.  A lone symbol the
link binds keeps its relocation. -/
def resolveAsmFieldExpr (t : Text) (ctx : AsmExprCtx) (key : SectionKey) (place addend : ℤ)
    (selfRel : Bool) (nonLocal : Text → Bool) : Result AsmFieldTarget := do
  let v ← evalAsmValue t ctx
  let v ← v.combine (.abs addend) false
  match v.loneSymbol.filter nonLocal with
  | some n => return .reloc (.symbol n) v.add none
  | none =>
    let v ←
      if selfRel then
        v.combine (.fromTerm ⟨some (.section key, place), .ownSection (place % 2 ^ 32).toNat⟩) true
      else pure v
    match ← resolveAsmValue v (some (.section key, place)) with
    | .abs c => return .abs c
    | .reloc target addend pcrel => return .reloc target addend (some pcrel)

/-- The names that some directive of the statement, or an earlier one, binds weak. -/
def asmWeakOnlyNames (u : AsmStatement) (name : Text) : Bool :=
  u.blocks.any (fun b => b.items.any fun li =>
    match li.item with
    | .weak n => n = name
    | _ => false) || u.sink.weakNames name

/-! ## Reach -/

/-- How the short form of a branch fares under a layout: its target keeps a relocation, or is
reached, or is out of reach, from the field to the label if the target is one. -/
inductive Reach
  | reloc
  | fits
  | out (span : Option (ℤ × ℤ))
  deriving DecidableEq

/-- The item at a site and the section it lies in. -/
def itemAt (blocks : List AsmSectionBlock) (site : Site) : Option (SectionKey × AsmSectionItem) :=
  blocks[site.1]?.bind fun b => b.items[site.2]?.map fun li => (b.key, li.item)

/-- Whether a displacement fits a field. -/
def reachOf (width : ℕ) (value : ℤ) (span : Option (ℤ × ℤ)) : Reach :=
  let lim : ℤ := 2 ^ (8 * width - 1)
  if -lim ≤ value ∧ value < lim then .fits else .out span

/-- Whether the short branch at a site reaches its target. -/
def shortFormReach (u : AsmStatement) (m : SectionLabelOffsets) (rebindable : Text → Bool)
    (s : AsmRelaxSite) : Reach :=
  match itemAt u.blocks s.site with
  | some (key, .codeBytes _ _ (some short)) =>
    let place := s.at_ + short.reloc.offset
    match short.reloc.target with
    | .symbol name =>
      if rebindable name then .reloc
      else
        let name := m.aliasTarget asmAliasDepthLimit name
        if (m.symbol name).isSome then .reloc
        else
          match m.map (labelKey name) with
          | some (sec, off) =>
            if sec = key then
              reachOf short.reloc.width (off + short.reloc.addend - place) (some (place, off))
            else .reloc
          | none => .reloc
    | .expr t =>
      let names : Names := ⟨m, u.sink, fun _ => none, fun _ => none⟩
      let ctx : AsmExprCtx := ⟨sectionExprLeaf names key s.at_, u.constOf, false⟩
      match resolveAsmFieldExpr t ctx key place short.reloc.addend true rebindable with
      | .ok (.abs c) => reachOf short.reloc.width c none
      | _ => .reloc
    | _ => .reloc
  | _ => .reloc

/-! ## The rounds -/

/-- An item sized by where it stands: an alignment, an `.org`, a label-counted fill. -/
def sizedByPlace (constOf : ℕ → Option ℤ) : AsmSectionItem → Bool
  | .align .. | .org _ | .orgLabel .. | .orgExpr _ => true
  | .fill count _ => (evalFillCountWith count 0 constOf fun _ => none).isNone
  | _ => false

/-- Whether an item sized by its place lies strictly between two offsets of a section. -/
def spansPliant (u : AsmStatement) (m : SectionLabelOffsets) (key : SectionKey) :
    Option (ℤ × ℤ) → Bool
  | none => true
  | some (a, b) =>
    u.blocks.zipIdx.any fun (blk, bi) =>
      blk.key = key && blk.items.zipIdx.any fun (li, ii) =>
        sizedByPlace u.constOf li.item &&
          (m.place (bi, ii)).any fun q => min a b < q && q < max a b

/-- One branch of a round: it is lengthened if it keeps a relocation or is out of reach, unless
its span holds an item sized by its place behind a branch lengthened in the same round. -/
def growStep (u : AsmStatement) (m : SectionLabelOffsets) (long : Finset Site)
    (acc : Finset Site × List SectionKey) (s : AsmRelaxSite) : Finset Site × List SectionKey :=
  if s.site ∈ long then acc
  else
    match u.blocks[s.site.1]? with
    | none => acc
    | some b =>
      match shortFormReach u m (asmWeakOnlyNames u) s with
      | .fits => acc
      | .out span =>
        if acc.2.contains b.key && spansPliant u m b.key span then acc
        else (insert s.site acc.1, b.key :: acc.2)
      | .reloc => (insert s.site acc.1, b.key :: acc.2)

/-- The branches a round lengthens. -/
def grown (u : AsmStatement) (m : SectionLabelOffsets) (long : Finset Site)
    (sites : List AsmRelaxSite) : Finset Site :=
  (sites.foldl (growStep u m long) (∅, [])).1

/-- The lengthening loop, for at most so many rounds. -/
def relaxLoop (u : AsmStatement) :
    ℕ → Finset Site → SectionLabelOffsets × List AsmRelaxSite →
      Except (List AsmError) SectionLabelOffsets
  | 0, _, _ => .error [(none, .rounds)]
  | fuel + 1, long, (m, sites) =>
    let more := grown u m long sites
    if more = ∅ then .ok { m with long := long }
    else
      match measureFillRounds u (long ∪ more) with
      | .ok next => relaxLoop u fuel (long ∪ more) next
      | .error e => .error e

/-- The sites of the branches that have a short form. -/
def relaxable (blocks : List AsmSectionBlock) : List Site :=
  blocks.zipIdx.flatMap fun (b, bi) =>
    b.items.zipIdx.filterMap fun (li, ii) =>
      match li.item with
      | .codeBytes _ _ (some _) => some (bi, ii)
      | _ => none

/-- Measure the section-relative offset of every label.  The branches with a short form bound the
rounds. -/
def measureAsmSectionOffsets (u : AsmStatement) : Except (List AsmError) SectionLabelOffsets :=
  match measureFillRounds u ∅ with
  | .error e => .error e
  | .ok (m, sites) =>
    if sites.isEmpty then .ok m
    else relaxLoop u ((relaxable u.blocks).length + 1) ∅ (m, sites)

end Badc.Asm
