import Badc.Lib.Align
import Badc.Lib.Bytes
import Badc.Lib.FindOrPush
import Badc.Lib.Loop
import Badc.Linker.Reloc

/-!
# Merge pools

Sections of equal-sized constants or of strings (`SHF_MERGE`) that go to one output section and agree
on entry size, kind and alignment are pooled: `buildPool` cuts their bytes into entries, keeps one
copy of each, stores a string that ends another one inside it, and lays the rest out in the order
they were first seen.  An offset into a member is then looked up in the pool (`mergeRemap`).

Sizes and offsets are 64-bit.  A pool that cannot be allocated, or an entry that does not fit the pool
it is copied to, ends the link: `none`.
-/

namespace Badc.Pools

open Reloc (RawReloc)

/-! ## Input sections -/

/-- The flag of a section whose entries may be merged. -/
def shfMerge : ℕ := 0x10

/-- The flag of a section of strings. -/
def shfStrings : ℕ := 0x20

/-- The type of a section with contents. -/
def shtProgbits : ℕ := 1

/-- The type of a section without file contents. -/
def shtNobits : ℕ := 8

/-- An input section, whose contents are cut out of the object file. -/
structure RawSection where
  shtype : ℕ
  flags : ℕ
  size : ℕ
  addralign : ℕ
  entsize : ℕ
  relocs : List RawReloc
  /-- The bytes of the file the section names. -/
  contents : List Byte
  addralign_lt : addralign < 2 ^ 64
  length_contents : shtype ≠ shtNobits → contents.length = size

/-- The contents of a section. -/
def RawSection.sectionData (s : RawSection) : List Byte :=
  if s.shtype = shtNobits then [] else s.contents

/-- Where an input section ended up. -/
inductive SecFate
  | unclaimed
  | placed (out : ℕ)
  | discarded
  deriving DecidableEq

/-! ## Cutting a member into entries -/

/-- What the members of a pool have in common. -/
structure MergeClass where
  entsize : ℕ
  strings : Bool
  align : ℕ
  deriving DecidableEq

/-- An entry of a pool under construction. -/
structure Entry where
  /-- The content, with the terminator of a string. -/
  bytes : List Byte
  /-- The alignment its start needs, 0 once it is stored as a suffix. -/
  align : ℕ
  index : ℕ
  suffixOf : Option ℕ
  deriving DecidableEq, Inhabited

/-- The entry of a number. -/
def entryAt (entries : List Entry) (i : ℕ) : Entry := entries.getD i default

/-- The number of zero bits below the lowest set bit of a 64-bit number. -/
def trailingZeros (n : ℕ) : ℕ := ((List.range 64).find? fun i => n.testBit i).getD 64

/-- The alignment the offset of an entry gives it, where offset 0 is fully aligned. -/
def eltalign (align pos : ℕ) : ℕ := if pos = 0 then align else min (2 ^ trailingZeros pos) align

/-- A unit of the data that ends a string. -/
def isTerminator (es : ℕ) (data : List Byte) (k : ℕ) : Bool :=
  ((data.drop k).take es).all fun b => b == 0

/-- The unit that ends the string at `pos`, or the end of the data. -/
def stringEnd (es : ℕ) (data : List Byte) (pos : ℕ) : ℕ :=
  whileSome (fun k => if data.length ≤ k ∨ isTerminator es data k then none else some (k + es))
    data.length pos

/-- The length of the entry at `pos`.  A string runs through its terminator; a string the data does
not end gains one. -/
def entryLen (c : MergeClass) (data : List Byte) (pos : ℕ) : ℕ :=
  if c.strings then
    let k := stringEnd c.entsize data pos
    if data.length ≤ k then data.length - pos + c.entsize else k + c.entsize - pos
  else c.entsize

/-- The bytes `data[pos..pos + len]`, zeros past the end of the data. -/
def resized (data : List Byte) (pos len : ℕ) : List Byte :=
  (List.range len).map fun j => data.getD (pos + j) 0

/-- The number of an entry's bytes, recorded with the alignment of this occurrence. -/
def intern (entries : List Entry) (bytes : List Byte) (al : ℕ) : List Entry × ℕ :=
  findOrPush entries (fun e => e.bytes == bytes) ⟨bytes, 0, 0, none⟩
    fun e => { e with align := max e.align al }

/-- The walk over the data of a member. -/
structure Scan where
  pos : ℕ
  entries : List Entry
  starts : List ℕ
  ids : List ℕ

/-- Record the entry at the position of the walk. -/
def scanStep (c : MergeClass) (data : List Byte) (s : Scan) : Option Scan :=
  if s.pos < data.length then
    let len := entryLen c data s.pos
    let (entries, eid) := intern s.entries (resized data s.pos len) (eltalign c.align s.pos)
    some ⟨s.pos + len, entries, s.starts ++ [s.pos], s.ids ++ [eid]⟩
  else none

/-- Record the entries of a member. -/
def scanMember (c : MergeClass) (data : List Byte) (entries : List Entry) : Scan :=
  whileSome (scanStep c data) data.length ⟨0, entries, [], []⟩

/-- A member of a pool: the number of the input section and its contents. -/
abbrev Member := ℕ × List Byte

/-- The entries of the members so far, and the offsets and entries of each member. -/
structure Survey where
  entries : List Entry
  refs : List (ℕ × List ℕ × List ℕ)
  padTail : Bool

/-- Record a member. -/
def surveyMember (c : MergeClass) (s : Survey) (m : Member) : Survey :=
  let scan := scanMember c m.2 s.entries
  ⟨scan.entries, s.refs ++ [(m.1, scan.starts, scan.ids)],
    s.padTail && decide (c.align ∣ m.2.length)⟩

/-- Record all members. -/
def survey (c : MergeClass) (members : List Member) : Survey :=
  members.foldl (surveyMember c) ⟨[], [], true⟩

/-! ## Sharing suffixes -/

/-- The length of an entry without the terminator. -/
def contentLen (es : ℕ) (e : Entry) : ℕ := e.bytes.length - es

/-- The alignment all entries have, where it exceeds the entry size. -/
def uniformAlign (es : ℕ) : List Entry → Option ℕ
  | [] => none
  | e :: rest => if (rest.all fun x => x.align == e.align) ∧ es < e.align then some e.align else none

/-- The order of reversed contents.  Where all entries have one alignment, the lengths modulo it come
first. -/
def revcmp (es : ℕ) (uniform : Option ℕ) (a b : Entry) : Ordering :=
  let la := contentLen es a
  let lb := contentLen es b
  let phase := match uniform with
    | some al => compare (la &&& (al - 1)) (lb &&& (al - 1))
    | none => .eq
  let content := (List.range (min la lb)).foldl
    (fun t k => t.then
      (compare (a.bytes.getD (la - (k + 1)) 0).toNat (b.bytes.getD (lb - (k + 1)) 0).toNat)) .eq
  (phase.then content).then (compare la lb)

/-- The numbers of the entries in the order of their reversed contents.  The sort is stable. -/
def suffixOrder (es : ℕ) (entries : List Entry) : List ℕ :=
  (List.range entries.length).insertionSort fun x y =>
    revcmp es (uniformAlign es entries) (entryAt entries x) (entryAt entries y) ≠ .gt

/-- Store entry `cmp` inside the entry the walk holds, where it ends that one at a place its
alignment allows; go on with `cmp` otherwise. -/
def suffixStep (st : List Entry × ℕ) (cmp : ℕ) : List Entry × ℕ :=
  let o := entryAt st.1 st.2
  let e := entryAt st.1 cmp
  let gap := o.bytes.length - e.bytes.length
  if e.align ≤ o.align ∧ e.bytes.length < o.bytes.length ∧ e.align ∣ gap ∧
      o.bytes.drop gap = e.bytes then
    (st.1.modify cmp fun x => { x with suffixOf := some st.2, align := 0 }, st.2)
  else (st.1, cmp)

/-- Store strings inside the strings they end, from the last one in the order to the first. -/
def shareSuffixes (c : MergeClass) (entries : List Entry) : List Entry :=
  if c.strings then
    match (suffixOrder c.entsize entries).reverse with
    | [] => entries
    | e :: rest => (rest.foldl suffixStep (entries, e)).1
  else entries

/-! ## Laying the entries out -/

/-- Give the stored entries their offsets, in the order they were first seen. -/
def assignIndex (size : ℕ) : List Entry → List Entry × ℕ
  | [] => ([], size)
  | e :: rest =>
    if e.align ≠ 0 then
      let index := alignUp size e.align
      let (rest, total) := assignIndex ((index + e.bytes.length) % 2 ^ 64) rest
      ({ e with index } :: rest, total)
    else
      let (rest, total) := assignIndex size rest
      (e :: rest, total)

/-- Give entry `k`, where it is stored as a suffix, its offset. -/
def suffixIndex (entries : List Entry) (k : ℕ) : List Entry :=
  match (entryAt entries k).suffixOf with
  | none => entries
  | some t => entries.modify k fun e =>
      { e with index :=
        ((entryAt entries t).index + ((entryAt entries t).bytes.length - e.bytes.length)) % 2 ^ 64 }

/-- Give all suffixes their offsets. -/
def suffixIndices (entries : List Entry) : List Entry :=
  (List.range entries.length).foldl suffixIndex entries

/-- The entries of a pool with their offsets, and the size they take. -/
def layOutEntries (c : MergeClass) (entries : List Entry) : List Entry × ℕ :=
  let (entries, size) := assignIndex 0 (shareSuffixes c entries)
  (suffixIndices entries, size)

/-- Copy a stored entry to its place. -/
def copyEntry (pool : List Byte) (e : Entry) : Option (List Byte) :=
  if e.align ≠ 0 then
    if e.index + e.bytes.length ≤ pool.length then some (overwrite pool e.index e.bytes) else none
  else some pool

/-- For each member the offsets of its entries in it and in the pool. -/
abbrev PoolMemberMaps := List (ℕ × List ℕ × List ℕ)

/-- The bytes of the pool of some members, and where their entries are in it. -/
def buildPool (c : MergeClass) (members : List Member) : Option (List Byte × PoolMemberMaps) := do
  let s := survey c members
  let (entries, size) := layOutEntries c s.entries
  let size := if s.padTail then alignUp size c.align else size
  -- A vector holds at most `isize::MAX` bytes.
  guard (size < 2 ^ 63)
  let pool ← entries.foldlM copyEntry (List.replicate size 0)
  return (pool, s.refs.map fun r => (r.1, r.2.1, r.2.2.map fun eid => (entryAt entries eid).index))

/-! ## The pools of a link -/

/-- What the merge pass reads of the linker. -/
structure LdsLinker where
  insecs : List RawSection
  fates : List SecFate

/-- A pool: its bytes, the offsets of its members, the member that carries the bytes, and the
alignment all members share. -/
structure MergePool where
  bytes : List Byte
  maps : PoolMemberMaps
  rep : ℕ
  align : ℕ

/-- Powers of two of 64 bits. -/
def isPowerOfTwo (n : ℕ) : Bool := (List.range 64).any fun k => n == 2 ^ k

/-- The class of a section that may be merged. -/
def RawSection.mergeClass (s : RawSection) : Option MergeClass :=
  if s.flags &&& shfMerge = 0 ∨ s.relocs ≠ [] ∨ s.shtype ≠ shtProgbits then none
  else
    let strings := decide (s.flags &&& shfStrings ≠ 0)
    if s.size = 0 ∨ 2 ^ 32 - 1 < s.size ∨ s.entsize = 0 ∨ ¬ s.entsize ∣ s.size then none
    else
      let align := max s.addralign 1
      -- An entry size below the alignment is a power of two and marks strings; above it, it is a
      -- multiple of the alignment.
      if !isPowerOfTwo align ∨ (s.entsize < align ∧ (!isPowerOfTwo s.entsize ∨ !strings)) ∨
          (align < s.entsize ∧ ¬ align ∣ s.entsize) then none
      else some ⟨s.entsize, strings, align⟩

/-- The output section and the class of an input section that is merged. -/
def LdsLinker.mergeKey (lk : LdsLinker) (i : ℕ) : Option (ℕ × MergeClass) :=
  match lk.fates[i]?, lk.insecs[i]? with
  | some (.placed out), some s => s.mergeClass.map fun c => (out, c)
  | _, _ => none

/-- The members of a pool under their key. -/
abbrev Group := (ℕ × MergeClass) × List ℕ

/-- The groups of a link, in the order their keys were first seen. -/
abbrev Groups := List Group

/-- Put section `i` into the group of its key. -/
def addMember (groups : Groups) (key : ℕ × MergeClass) (i : ℕ) : Groups :=
  (findOrPush groups (fun g => g.1 == key) (key, []) fun g => (g.1, g.2 ++ [i])).1

/-- The groups of a link. -/
def LdsLinker.groups (lk : LdsLinker) : Groups :=
  (List.range lk.insecs.length).foldl
    (fun groups i => match lk.mergeKey i with
      | some key => addMember groups key i
      | none => groups) []

/-- The contents of section `i`. -/
def LdsLinker.dataOf (lk : LdsLinker) (i : ℕ) : List Byte :=
  (lk.insecs[i]?.map RawSection.sectionData).getD []

/-- The pool of a group. -/
def LdsLinker.poolOf (lk : LdsLinker) (g : Group) : Option MergePool := do
  let (bytes, maps) ← buildPool g.1.2 (g.2.map fun m => (m, lk.dataOf m))
  let rep ← g.2.min?
  return ⟨bytes, maps, rep, g.1.2.align⟩

/-- The pools of a link, and the pool of each section that is merged. -/
structure PoolTable where
  pools : List MergePool
  mergeOf : ℕ → Option ℕ

/-- Add the pool of a group. -/
def LdsLinker.addPool (lk : LdsLinker) (p : PoolTable) (g : Group) : Option PoolTable := do
  let pool ← lk.poolOf g
  return ⟨p.pools ++ [pool], g.2.foldl (fun f m => Function.update f m (some p.pools.length)) p.mergeOf⟩

/-- Build the pools of a link. -/
def LdsLinker.buildMergePools (lk : LdsLinker) : Option PoolTable :=
  lk.groups.foldlM lk.addPool ⟨[], fun _ => none⟩

/-! ## Looking an offset up -/

/-- Binary search in a sorted list without repeats: the place of `x`, or the place where it would go. -/
def binarySearch (xs : List ℕ) (x : ℕ) : Except ℕ ℕ :=
  let k := xs.findIdx fun y => x ≤ y
  if xs[k]? = some x then .ok k else .error k

/-- The offset in the pool of an offset in a member. -/
def lookUp (starts targets : List ℕ) (off : ℕ) : ℕ :=
  match binarySearch starts off with
  | .ok k => targets.getD k 0
  | .error 0 => off
  | .error (k + 1) => targets.getD k 0 + (off - starts.getD k 0)

/-- The offset in the pool of an offset in a merged section.  At or past the end of the section it is
the end of the pool. -/
def LdsLinker.mergeRemap (lk : LdsLinker) (p : PoolTable) (insec off : ℕ) : Option ℕ := do
  let gid ← p.mergeOf insec
  let pool ← p.pools[gid]?
  let s ← lk.insecs[insec]?
  if s.size ≤ off then return pool.bytes.length
  let (_, starts, targets) ← pool.maps.find? fun r => r.1 == insec
  return lookUp starts targets off

end Badc.Pools
