import Badc.Lib.WordBuffer

/-!
# The compact unwind table

`build` writes the table an unwinder searches for the encoding of a function: the personality slots,
a first-level index of pages with a sentinel, the index of the functions with an LSDA, and the pages.
`lookup` is the search: the page of the first level, the function in the page, and its LSDA in the
page's range of the LSDA index.

The offsets in the table are `u32`.  Where that of the last page fits, the search finds the function
that covers a program counter, with its own LSDA (`lookup_build`); beyond, the table is one that no
search reads (`lookup_build_long`).
-/

namespace Badc.UnwindInfo

/-! ## The table -/

/-- A function's encoding and LSDA, at offsets from the image's header. -/
structure UnwindEntry where
  offset : BitVec 32
  encoding : BitVec 32
  lsda : Option (BitVec 32)
  deriving DecidableEq

/-- An LSDA index entry exists for the function. -/
def hasLsda : BitVec 32 := 0x40000000

def headerSize : ℕ := 28
def indexEntrySize : ℕ := 12
def lsdaEntrySize : ℕ := 8
def pageHeaderSize : ℕ := 8
def pageEntrySize : ℕ := 8

/-- The entries one regular page holds within 4 KiB. -/
def pageEntries : ℕ := (4096 - pageHeaderSize) / pageEntrySize

/-- The pages of `n` entries. -/
def pageCount (n : ℕ) : ℕ := (n + (pageEntries - 1)) / pageEntries

/-- The section's size for `n` entries, `personalities` slots and `lsdas` entries with an LSDA. -/
def size (n personalities lsdas : ℕ) : ℕ :=
  headerSize + 4 * personalities + indexEntrySize * (pageCount n + 1) + lsdaEntrySize * lsdas +
    pageCount n * pageHeaderSize + n * pageEntrySize

/-- `as u32`. -/
def u32 (n : ℕ) : BitVec 32 := BitVec.ofNat 32 n

/-- The entries, page by page. -/
def pagesOf (entries : List UnwindEntry) : List (List UnwindEntry) :=
  (List.range (pageCount entries.length)).map fun k =>
    (entries.drop (pageEntries * k)).take pageEntries

/-- How many entries have an LSDA. -/
def lsdaCount (entries : List UnwindEntry) : ℕ := (entries.filter (·.lsda.isSome)).length

/-- The offset of the first entry of a page. -/
def firstOffset (page : List UnwindEntry) : BitVec 32 := (page.head?.map (·.offset)).getD 0

/-- The first-level index from a page on, with the running offsets of the page and of its range of
the LSDA index; the sentinel last. -/
def indexWords (endAt : BitVec 32) : List (List UnwindEntry) → ℕ → ℕ → List (BitVec 32)
  | [], _, lsdaAt => [endAt, 0, u32 lsdaAt]
  | page :: pages, pageOff, lsdaAt =>
    [firstOffset page, u32 pageOff, u32 lsdaAt] ++
      indexWords endAt pages (pageOff + (pageHeaderSize + page.length * pageEntrySize))
        (lsdaAt + lsdaEntrySize * lsdaCount page)

/-- The LSDA index entry of a function. -/
def lsdaWords (e : UnwindEntry) : List (BitVec 32) :=
  match e.lsda with
  | some lsda => [e.offset, lsda]
  | none => []

/-- A regular page: its kind, the size of its header and the number of its entries in 16 bits
each, and the entries. -/
def pageBytes (page : List UnwindEntry) : List Byte :=
  wordBytes 2 ++ (leBytes 2 pageHeaderSize ++ leBytes 2 page.length) ++
    page.flatMap fun e => wordBytes e.offset ++ wordBytes e.encoding

/-- Where the LSDA index starts. -/
def lsdaOffset (entries : List UnwindEntry) (personalities : List (BitVec 32)) : ℕ :=
  headerSize + 4 * personalities.length + indexEntrySize * ((pagesOf entries).length + 1)

/-- Where the pages start. -/
def pagesOffset (entries : List UnwindEntry) (personalities : List (BitVec 32)) : ℕ :=
  lsdaOffset entries personalities + lsdaEntrySize * lsdaCount entries

/-- The header. -/
def headerWords (entries : List UnwindEntry) (personalities : List (BitVec 32)) :
    List (BitVec 32) :=
  [1, u32 headerSize, 0, u32 headerSize, u32 personalities.length,
    u32 (headerSize + 4 * personalities.length), u32 (pagesOf entries).length + 1]

/-- The section for `entries`, sorted by offset and ending at `endAt`. -/
def build (entries : List UnwindEntry) (personalities : List (BitVec 32)) (endAt : BitVec 32) :
    List Byte :=
  (headerWords entries personalities).flatMap wordBytes ++ personalities.flatMap wordBytes ++
    (indexWords endAt (pagesOf entries) (pagesOffset entries personalities)
      (lsdaOffset entries personalities)).flatMap wordBytes ++
    (entries.flatMap lsdaWords).flatMap wordBytes ++ (pagesOf entries).flatMap pageBytes

/-! ## The search

A read past the section, an assertion that fails and an LSDA that is missing are panics: `none`. -/

/-- The last index below a bound with a property. -/
def findLast (p : ℕ → Option Bool) : ℕ → Option (Option ℕ)
  | 0 => some none
  | n + 1 => (p n).bind fun b => if b then some (some n) else findLast p n

/-- The first of some indices, from one on, with a property. -/
def findFirst (p : ℕ → Option Bool) : ℕ → ℕ → Option (Option ℕ)
  | _, 0 => some none
  | i, n + 1 => (p i).bind fun b => if b then some (some i) else findFirst p (i + 1) n

/-- Where a first-level index entry stands. -/
def entryAt (index i : ℕ) : ℕ := index + i * indexEntrySize

/-- Whether the functions of a first-level entry may cover the program counter. -/
def coversPage (table : List Byte) (index : ℕ) (pc : BitVec 32) (i : ℕ) : Option Bool :=
  (wordAt table (entryAt index i)).bind fun lo =>
    if lo ≤ pc then (wordAt table (entryAt index (i + 1))).map fun hi => decide (pc < hi)
    else some false

/-- The LSDA of a function, in the range of the first-level entry. -/
def lsdaOf (table : List Byte) (index first : ℕ) (offset : BitVec 32) : Option (BitVec 32) :=
  (wordAt table (entryAt index first + 8)).bind fun lo =>
  (wordAt table (entryAt index (first + 1) + 8)).bind fun hi =>
  (findFirst (fun j => (wordAt table (lo.toNat + lsdaEntrySize * j)).map (· == offset)) 0
    ((hi.toNat - lo.toNat + (lsdaEntrySize - 1)) / lsdaEntrySize)).bind fun hit =>
  hit.bind fun j => wordAt table (lo.toNat + lsdaEntrySize * j + 4)

/-- The function of a page that covers the program counter. -/
def searchPage (table : List Byte) (index : ℕ) (pc : BitVec 32) (first : ℕ) :
    Option (Option UnwindEntry) :=
  (wordAt table (entryAt index first + 4)).bind fun page =>
  (wordAt table page.toNat).bind fun kind =>
  if kind ≠ 2 then none
  else
    (halfAt table (page.toNat + 6)).bind fun n =>
    (findLast (fun k => (wordAt table (page.toNat + pageHeaderSize + k * pageEntrySize)).map
      fun offset => decide (offset ≤ pc)) n.toNat).bind fun found =>
    match found with
    | none => some none
    | some k =>
      (wordAt table (page.toNat + pageHeaderSize + k * pageEntrySize)).bind fun offset =>
      (wordAt table (page.toNat + pageHeaderSize + k * pageEntrySize + 4)).bind fun encoding =>
      if encoding &&& hasLsda ≠ 0 then
        (lsdaOf table index first offset).map fun lsda => some ⟨offset, encoding, some lsda⟩
      else some (some ⟨offset, encoding, none⟩)

/-- The entry covering `pc`, with its LSDA; nothing outside the table. -/
def lookup (table : List Byte) (pc : BitVec 32) : Option (Option UnwindEntry) :=
  (wordAt table 0).bind fun version =>
  if version ≠ 1 then none
  else
    (wordAt table 20).bind fun index =>
    (wordAt table 24).bind fun count =>
    if count = 0 then none
    else
      (findLast (coversPage table index.toNat pc) (count.toNat - 1)).bind fun found =>
      match found with
      | none => some none
      | some first => searchPage table index.toNat pc first

variable {entries : List UnwindEntry} {personalities : List (BitVec 32)} {endAt pc : BitVec 32}
  {table : List Byte} {i k m n : ℕ} {e : UnwindEntry}

/-! ## Pages -/

/-- A page. -/
def pageAt (entries : List UnwindEntry) (k : ℕ) : List UnwindEntry :=
  (entries.drop (pageEntries * k)).take pageEntries

/-- The entries of the pages before one. -/
def entriesBefore (entries : List UnwindEntry) (k : ℕ) : List UnwindEntry :=
  entries.take (pageEntries * k)

@[simp] lemma length_pagesOf : (pagesOf entries).length = pageCount entries.length := by
  simp [pagesOf]

lemma lt_length_of_lt_pageCount (hk : k < pageCount n) : pageEntries * k < n := by
  unfold pageCount pageEntries pageHeaderSize pageEntrySize at *
  omega

lemma div_lt_pageCount (hm : m < n) : m / pageEntries < pageCount n := by
  unfold pageCount pageEntries pageHeaderSize pageEntrySize
  omega

lemma le_mul_pageCount : n ≤ pageEntries * pageCount n := by
  unfold pageCount pageEntries pageHeaderSize pageEntrySize
  omega

lemma getElem?_pagesOf (hk : k < pageCount entries.length) :
    (pagesOf entries)[k]? = some (pageAt entries k) := by
  rw [pagesOf, List.getElem?_map, List.getElem?_range hk]
  rfl

lemma length_pageAt : (pageAt entries k).length =
    min pageEntries (entries.length - pageEntries * k) := by
  rw [pageAt, List.length_take, List.length_drop]

lemma getElem?_pageAt (hi : i < pageEntries) :
    (pageAt entries k)[i]? = entries[pageEntries * k + i]? := by
  rw [pageAt, List.getElem?_take_of_lt hi, List.getElem?_drop]

lemma entriesBefore_succ : entriesBefore entries (k + 1) = entriesBefore entries k ++ pageAt entries k := by
  rw [entriesBefore, entriesBefore, pageAt, Nat.mul_succ, List.take_add]

@[simp] lemma lsdaCount_append (xs ys : List UnwindEntry) :
    lsdaCount (xs ++ ys) = lsdaCount xs + lsdaCount ys := by
  rw [lsdaCount, List.filter_append, List.length_append]
  rfl

/-- Where a page starts. -/
def pageOffset (entries : List UnwindEntry) (personalities : List (BitVec 32)) (k : ℕ) : ℕ :=
  pagesOffset entries personalities + 4096 * k

/-- Where the range of a page starts in the LSDA index. -/
def rangeOffset (entries : List UnwindEntry) (personalities : List (BitVec 32)) (k : ℕ) : ℕ :=
  lsdaOffset entries personalities + lsdaEntrySize * lsdaCount (entriesBefore entries k)

/-- The least offset past what a first-level entry covers from below: that of the page's first
function, or the end. -/
def bound (entries : List UnwindEntry) (endAt : BitVec 32) (k : ℕ) : BitVec 32 :=
  if k < pageCount entries.length then firstOffset (pageAt entries k) else endAt

/-- A first-level index entry. -/
def indexEntry (entries : List UnwindEntry) (personalities : List (BitVec 32)) (endAt : BitVec 32)
    (k : ℕ) : List (BitVec 32) :=
  [bound entries endAt k,
    if k < pageCount entries.length then u32 (pageOffset entries personalities k) else 0,
    u32 (rangeOffset entries personalities k)]

/-- The running offsets of the index are those of the pages and of their ranges. -/
lemma indexWords_eq (n : ℕ) (hn : k + n = pageCount entries.length) :
    indexWords endAt ((List.range' k n).map (pageAt entries)) (pageOffset entries personalities k)
      (rangeOffset entries personalities k) =
      (List.range' k (n + 1)).flatMap (indexEntry entries personalities endAt) := by
  induction n generalizing k with
  | zero =>
    have hk : ¬ k < pageCount entries.length := by omega
    simp [indexWords, indexEntry, bound, hk]
  | succ n ih =>
    have hk : k < pageCount entries.length := by omega
    have hrange : rangeOffset entries personalities k + lsdaEntrySize * lsdaCount (pageAt entries k) =
        rangeOffset entries personalities (k + 1) := by
      rw [rangeOffset, rangeOffset, entriesBefore_succ, lsdaCount_append]
      ring
    rw [List.range'_succ, List.map_cons, indexWords, List.range'_succ, List.flatMap_cons, hrange]
    congr 1
    · simp [indexEntry, bound, hk]
    · cases n with
      | zero =>
        have hk' : ¬ k + 1 < pageCount entries.length := by omega
        simp [indexWords, indexEntry, bound, hk']
      | succ n =>
        -- A page before another one is full.
        have hfull : (pageAt entries k).length = pageEntries := by
          have hlt := lt_length_of_lt_pageCount (show k + 1 < pageCount entries.length by omega)
          rw [Nat.mul_succ] at hlt
          rw [length_pageAt, Nat.min_eq_left (by omega)]
        have hpage : pageOffset entries personalities k +
            (pageHeaderSize + (pageAt entries k).length * pageEntrySize) =
            pageOffset entries personalities (k + 1) := by
          rw [hfull, pageOffset, pageOffset, Nat.mul_succ, Nat.add_assoc]
          rfl
        rw [hpage]
        exact ih (by omega)

/-! ## The section as words -/

/-- The words of a page. -/
def pageWords (page : List UnwindEntry) : List (BitVec 32) :=
  [2, u32 (pageHeaderSize + 65536 * page.length)] ++ page.flatMap fun e => [e.offset, e.encoding]

/-- A page is its words. -/
lemma pageBytes_eq {page : List UnwindEntry} (hlen : page.length ≤ pageEntries) :
    pageBytes page = (pageWords page).flatMap wordBytes := by
  have hsmall : page.length < 65536 := hlen.trans_lt (by decide)
  have hhalves : leBytes 2 pageHeaderSize ++ leBytes 2 page.length =
      wordBytes (u32 (pageHeaderSize + 65536 * page.length)) := by
    have hnat : (u32 (pageHeaderSize + 65536 * page.length)).toNat = 8 + 65536 * page.length := by
      rw [u32, BitVec.toNat_ofNat]
      exact Nat.mod_eq_of_lt (by unfold pageHeaderSize; omega)
    rw [wordBytes, hnat]
    have h0 : (8 + 65536 * page.length) / 256 ^ 1 = 256 * page.length := by omega
    have h1 : (8 + 65536 * page.length) / 256 ^ 2 = page.length := by omega
    have h2 : (8 + 65536 * page.length) / 256 ^ 3 = page.length / 256 := by omega
    simp only [leBytes, List.range_succ, List.range_zero, List.nil_append,
      List.map_cons, List.map_nil, List.cons_append, h0, h1, h2, pageHeaderSize]
    refine List.cons_eq_cons.mpr ⟨BitVec.eq_of_toNat_eq ?_, List.cons_eq_cons.mpr
      ⟨BitVec.eq_of_toNat_eq ?_, ?_⟩⟩
    · simp only [BitVec.toNat_ofNat]
      omega
    · simp only [BitVec.toNat_ofNat]
      omega
    · norm_num
  rw [pageBytes, hhalves, pageWords, List.flatMap_append, List.flatMap_assoc]
  simp

lemma length_le_of_mem_pagesOf {page : List UnwindEntry} (h : page ∈ pagesOf entries) :
    page.length ≤ pageEntries := by
  obtain ⟨k, -, rfl⟩ := List.mem_map.mp h
  exact List.length_take_le _ _

/-- The words of the section. -/
def words (entries : List UnwindEntry) (personalities : List (BitVec 32)) (endAt : BitVec 32) :
    List (BitVec 32) :=
  headerWords entries personalities ++ (personalities ++
    ((List.range (pageCount entries.length + 1)).flatMap (indexEntry entries personalities endAt) ++
      (entries.flatMap lsdaWords ++ (pagesOf entries).flatMap pageWords)))

/-- The section is its words. -/
lemma build_eq : build entries personalities endAt =
    (words entries personalities endAt).flatMap wordBytes := by
  have hindex : indexWords endAt (pagesOf entries) (pagesOffset entries personalities)
      (lsdaOffset entries personalities) = (List.range (pageCount entries.length + 1)).flatMap
        (indexEntry entries personalities endAt) := by
    have := @indexWords_eq entries personalities endAt 0 (pageCount entries.length) (Nat.zero_add _)
    rw [← List.range_eq_range', ← List.range_eq_range'] at this
    rw [← this]
    simp [pageOffset, rangeOffset, entriesBefore, lsdaCount, pagesOf]
    rfl
  have hpages : (pagesOf entries).flatMap pageBytes =
      ((pagesOf entries).flatMap pageWords).flatMap wordBytes := by
    rw [List.flatMap_assoc]
    exact List.flatMap_congr fun page h => pageBytes_eq (length_le_of_mem_pagesOf h)
  rw [build, hindex, hpages, words]
  simp only [List.flatMap_append, List.append_assoc]

/-- The entries with an LSDA. -/
def lsdas (entries : List UnwindEntry) : List UnwindEntry := entries.filter (·.lsda.isSome)

lemma flatMap_lsdaWords : entries.flatMap lsdaWords = (lsdas entries).flatMap lsdaWords := by
  induction entries with
  | nil => rfl
  | cons e entries ih =>
    rw [List.flatMap_cons, ih, lsdas, lsdas, List.filter_cons]
    cases h : e.lsda with
    | none => simp [lsdaWords, h]
    | some lsda => simp [lsdaWords, h]

lemma length_lsdaWords (h : e ∈ lsdas entries) : (lsdaWords e).length = 2 := by
  obtain ⟨lsda, hl⟩ := Option.isSome_iff_exists.mp (List.mem_filter.mp h).2
  rw [lsdaWords, hl]
  rfl

/-- The words of the pages up to one. -/
lemma length_flatMap_pageWords (k : ℕ) :
    (((List.range k).map (pageAt entries)).flatMap pageWords).length =
      2 * k + 2 * (entriesBefore entries k).length := by
  induction k with
  | zero => simp [entriesBefore]
  | succ k ih =>
    have hpage : (pageWords (pageAt entries k)).length = 2 + 2 * (pageAt entries k).length := by
      rw [pageWords, List.length_append,
        length_flatMap_of_length (c := 2) (f := fun e : UnwindEntry => [e.offset, e.encoding])
          fun _ _ => rfl]
      rfl
    rw [List.range_succ, List.map_append, List.flatMap_append, List.length_append, ih,
      entriesBefore_succ, List.length_append, List.map_cons, List.map_nil, List.flatMap_cons,
      List.flatMap_nil, List.append_nil, hpage]
    ring

lemma entriesBefore_pageCount : entriesBefore entries (pageCount entries.length) = entries :=
  List.take_of_length_le le_mul_pageCount

lemma length_indexEntry : (indexEntry entries personalities endAt k).length = 3 := rfl

/-- **The section has its size.** -/
lemma length_build : (build entries personalities endAt).length =
    size entries.length personalities.length (lsdaCount entries) := by
  have hlsda : (entries.flatMap lsdaWords).length = 2 * lsdaCount entries := by
    rw [flatMap_lsdaWords, length_flatMap_of_length fun e h => length_lsdaWords h]
    rfl
  have hpages : ((pagesOf entries).flatMap pageWords).length =
      2 * pageCount entries.length + 2 * entries.length := by
    have := @length_flatMap_pageWords entries (pageCount entries.length)
    rwa [entriesBefore_pageCount] at this
  rw [build_eq, length_flatMap_wordBytes, words]
  simp only [List.length_append, hlsda, hpages,
    length_flatMap_of_length fun k _ => @length_indexEntry entries personalities endAt k,
    List.length_range]
  rw [size, headerWords]
  simp only [List.length_cons, List.length_nil, headerSize, indexEntrySize, lsdaEntrySize,
    pageHeaderSize, pageEntrySize]
  ring

/-! ## Reads -/

lemma wordAt_header (hk : k < 7) : wordAt (build entries personalities endAt) (4 * k) =
    (headerWords entries personalities)[k]? := by
  rw [build_eq, wordAt_flatMap, words, List.getElem?_append_left hk]

/-- A word of the first-level index. -/
lemma wordAt_index (hi : i ≤ pageCount entries.length) {c : ℕ} (hc : c < 3) :
    wordAt (build entries personalities endAt)
      (entryAt (headerSize + 4 * personalities.length) i + 4 * c) =
      (indexEntry entries personalities endAt i)[c]? := by
  have hoff : entryAt (headerSize + 4 * personalities.length) i + 4 * c =
      4 * (7 + (personalities.length + (3 * i + c))) := by
    unfold entryAt headerSize indexEntrySize
    ring
  have hget : (List.range (pageCount entries.length + 1))[i]? = some i :=
    List.getElem?_range (Nat.lt_succ_of_le hi)
  have hread := getElem?_flatMap_of_length (f := indexEntry entries personalities endAt) (c := 3)
    (j := c) (fun _ _ _ _ => rfl) hget hc
  rw [hoff, build_eq, wordAt_flatMap, words,
    List.getElem?_append_right (Nat.le_add_right 7 _), show 7 + (personalities.length +
      (3 * i + c)) - (headerWords entries personalities).length =
      personalities.length + (3 * i + c) from Nat.add_sub_cancel_left ..,
    List.getElem?_append_right (Nat.le_add_right _ _), Nat.add_sub_cancel_left,
    List.getElem?_append_left, hread]
  rw [length_flatMap_of_length fun k _ => @length_indexEntry entries personalities endAt k,
    List.length_range]
  omega

lemma length_before_lsda : ((List.range (pageCount entries.length + 1)).flatMap
    (indexEntry entries personalities endAt)).length = 3 * (pageCount entries.length + 1) := by
  rw [length_flatMap_of_length fun k _ => @length_indexEntry entries personalities endAt k,
    List.length_range]

/-- A word of the LSDA index. -/
lemma wordAt_lsda (he : (lsdas entries)[k]? = some e) {c : ℕ} (hc : c < 2) :
    wordAt (build entries personalities endAt)
      (lsdaOffset entries personalities + lsdaEntrySize * k + 4 * c) = (lsdaWords e)[c]? := by
  have hoff : lsdaOffset entries personalities + lsdaEntrySize * k + 4 * c =
      4 * (7 + (personalities.length + (3 * (pageCount entries.length + 1) + (2 * k + c)))) := by
    unfold lsdaOffset headerSize indexEntrySize lsdaEntrySize
    rw [length_pagesOf]
    ring
  have hmem : e ∈ lsdas entries := List.mem_of_getElem? he
  have hread := getElem?_flatMap_of_length (f := lsdaWords) (c := 2) (j := c)
    (fun i _ b hb => length_lsdaWords (List.mem_of_getElem? hb)) he
    (by rw [length_lsdaWords hmem]; exact hc)
  have hlt : 2 * k + c < ((lsdas entries).flatMap lsdaWords).length := by
    obtain ⟨hk, -⟩ := List.getElem?_eq_some_iff.mp he
    rw [length_flatMap_of_length fun e h => length_lsdaWords h]
    omega
  rw [hoff, build_eq, wordAt_flatMap, words,
    List.getElem?_append_right (Nat.le_add_right 7 _), show 7 + (personalities.length +
      (3 * (pageCount entries.length + 1) + (2 * k + c))) -
      (headerWords entries personalities).length = personalities.length +
      (3 * (pageCount entries.length + 1) + (2 * k + c)) from Nat.add_sub_cancel_left ..,
    List.getElem?_append_right (Nat.le_add_right _ _), Nat.add_sub_cancel_left,
    List.getElem?_append_right (by rw [length_before_lsda]; exact Nat.le_add_right _ _),
    length_before_lsda, Nat.add_sub_cancel_left, flatMap_lsdaWords, List.getElem?_append_left hlt,
    hread]

/-- The words of the pages before a page. -/
lemma length_pageWords (hk : k + 1 < pageCount entries.length) :
    (pageWords (pageAt entries k)).length = 1024 := by
  have hlt := lt_length_of_lt_pageCount hk
  have hfull : (pageAt entries k).length = pageEntries := by
    rw [Nat.mul_succ] at hlt
    rw [length_pageAt, Nat.min_eq_left (by omega)]
  rw [pageWords, List.length_append,
    length_flatMap_of_length (c := 2) (f := fun e : UnwindEntry => [e.offset, e.encoding])
      fun _ _ => rfl, hfull]
  rfl

/-- A word of a page, in the words of the section. -/
lemma getElem?_words_page (hk : k < pageCount entries.length) {j : ℕ}
    (hj : j < (pageWords (pageAt entries k)).length) :
    (words entries personalities endAt)[7 + (personalities.length +
      (3 * (pageCount entries.length + 1) + (2 * lsdaCount entries + (1024 * k + j))))]? =
      (pageWords (pageAt entries k))[j]? := by
  have hlsda : (entries.flatMap lsdaWords).length = 2 * lsdaCount entries := by
    rw [flatMap_lsdaWords, length_flatMap_of_length fun e h => length_lsdaWords h]
    rfl
  have hread := getElem?_flatMap_of_length (f := pageWords) (c := 1024) (j := j)
    (fun i hi b hb => by
      rw [getElem?_pagesOf (by omega)] at hb
      obtain rfl := Option.some.inj hb
      exact length_pageWords (by omega)) (getElem?_pagesOf hk) hj
  rw [words, List.getElem?_append_right (Nat.le_add_right 7 _), show 7 + (personalities.length +
      (3 * (pageCount entries.length + 1) + (2 * lsdaCount entries + (1024 * k + j)))) -
      (headerWords entries personalities).length = personalities.length +
      (3 * (pageCount entries.length + 1) + (2 * lsdaCount entries + (1024 * k + j)))
      from Nat.add_sub_cancel_left ..,
    List.getElem?_append_right (Nat.le_add_right _ _), Nat.add_sub_cancel_left,
    List.getElem?_append_right (by rw [length_before_lsda]; exact Nat.le_add_right _ _),
    length_before_lsda, Nat.add_sub_cancel_left,
    List.getElem?_append_right (by rw [hlsda]; exact Nat.le_add_right _ _), hlsda,
    Nat.add_sub_cancel_left, hread]

lemma pageOffset_eq (j : ℕ) : pageOffset entries personalities k + 4 * j =
    4 * (7 + (personalities.length +
      (3 * (pageCount entries.length + 1) + (2 * lsdaCount entries + (1024 * k + j))))) := by
  unfold pageOffset pagesOffset lsdaOffset headerSize indexEntrySize lsdaEntrySize
  rw [length_pagesOf]
  ring

lemma wordAt_page (hk : k < pageCount entries.length) {j : ℕ}
    (hj : j < (pageWords (pageAt entries k)).length) :
    wordAt (build entries personalities endAt) (pageOffset entries personalities k + 4 * j) =
      (pageWords (pageAt entries k))[j]? := by
  rw [pageOffset_eq, build_eq, wordAt_flatMap, getElem?_words_page hk hj]

/-- The number of entries a page holds. -/
lemma halfAt_page (hk : k < pageCount entries.length) :
    halfAt (build entries personalities endAt) (pageOffset entries personalities k + 6) =
      some (BitVec.ofNat 16 (pageAt entries k).length) := by
  have hword : (words entries personalities endAt)[7 + (personalities.length +
      (3 * (pageCount entries.length + 1) + (2 * lsdaCount entries + (1024 * k + 1))))]? =
      some (u32 (pageHeaderSize + 65536 * (pageAt entries k).length)) := by
    refine (getElem?_words_page hk ?_).trans rfl
    rw [pageWords, List.length_append]
    exact Nat.lt_of_lt_of_le (by decide) (Nat.le_add_right 2 _)
  have hlen : (pageAt entries k).length < 65536 := by
    rw [length_pageAt]
    exact (Nat.min_le_left _ _).trans_lt (by decide)
  rw [show pageOffset entries personalities k + 6 = pageOffset entries personalities k + 4 * 1 + 2
    from rfl, pageOffset_eq, build_eq, halfAt_flatMap hword]
  refine congrArg some (BitVec.eq_of_toNat_eq ?_)
  rw [BitVec.extractLsb'_toNat, u32, BitVec.toNat_ofNat, BitVec.toNat_ofNat, Nat.shiftRight_eq_div_pow,
    pageHeaderSize]
  omega

/-- The offset and the encoding of an entry of a page. -/
lemma wordAt_entry (hm : entries[m]? = some e) :
    wordAt (build entries personalities endAt) (pageOffset entries personalities (m / pageEntries) +
        pageHeaderSize + m % pageEntries * pageEntrySize) = some e.offset ∧
    wordAt (build entries personalities endAt) (pageOffset entries personalities (m / pageEntries) +
        pageHeaderSize + m % pageEntries * pageEntrySize + 4) = some e.encoding := by
  obtain ⟨hlt, -⟩ := List.getElem?_eq_some_iff.mp hm
  have hpage := div_lt_pageCount hlt
  have hget : (pageAt entries (m / pageEntries))[m % pageEntries]? = some e := by
    rw [getElem?_pageAt (Nat.mod_lt _ (by decide)), Nat.div_add_mod, hm]
  obtain ⟨hin, -⟩ := List.getElem?_eq_some_iff.mp hget
  have hread : ∀ c < 2, (pageWords (pageAt entries (m / pageEntries)))[2 + (2 * (m % pageEntries) + c)]? =
      [e.offset, e.encoding][c]? := by
    intro c hc
    rw [pageWords, List.getElem?_append_right (Nat.le_add_right 2 _),
      show ∀ j, 2 + j - [(2 : BitVec 32), u32 (pageHeaderSize +
        65536 * (pageAt entries (m / pageEntries)).length)].length = j from
        fun j => Nat.add_sub_cancel_left ..]
    exact getElem?_flatMap_of_length (f := fun e : UnwindEntry => [e.offset, e.encoding]) (c := 2)
      (fun _ _ _ _ => rfl) hget hc
  have hlen : ∀ c < 2, 2 + (2 * (m % pageEntries) + c) <
      (pageWords (pageAt entries (m / pageEntries))).length := by
    intro c hc
    have := hread c hc
    by_contra hge
    rw [List.getElem?_eq_none (by omega)] at this
    exact absurd (List.getElem?_eq_none_iff.mp this.symm) (by simpa using hc)
  have hoff : ∀ c, pageOffset entries personalities (m / pageEntries) + pageHeaderSize +
      m % pageEntries * pageEntrySize + 4 * c =
      pageOffset entries personalities (m / pageEntries) + 4 * (2 + (2 * (m % pageEntries) + c)) := by
    intro c
    unfold pageHeaderSize pageEntrySize
    ring
  constructor
  · have := hoff 0
    rw [Nat.mul_zero, Nat.add_zero] at this
    rw [this, wordAt_page hpage (hlen 0 (by decide)), hread 0 (by decide)]
    rfl
  · rw [show (4 : ℕ) = 4 * 1 from rfl, hoff 1, wordAt_page hpage (hlen 1 (by decide)),
      hread 1 (by decide)]
    rfl

/-! ## Searches -/

/-- The last index with a property is found. -/
lemma findLast_eq {p : ℕ → Option Bool} {q : ℕ → Bool} (hp : ∀ j < n, p j = some (q j)) (hi : i < n)
    (hq : q i = true) (hlast : ∀ j, i < j → j < n → q j = false) : findLast p n = some (some i) := by
  induction n with
  | zero => exact absurd hi (Nat.not_lt_zero i)
  | succ n ih =>
    rw [findLast, hp n (Nat.lt_succ_self n), Option.bind_some]
    rcases Nat.lt_succ_iff_lt_or_eq.mp hi with hlt | rfl
    · rw [hlast n hlt (Nat.lt_succ_self n)]
      exact ih (fun j hj => hp j (Nat.lt_succ_of_lt hj)) hlt fun j hij hj =>
        hlast j hij (Nat.lt_succ_of_lt hj)
    · rw [hq, if_pos rfl]

lemma findLast_none {p : ℕ → Option Bool} (hp : ∀ j < n, p j = some false) :
    findLast p n = some none := by
  induction n with
  | zero => rfl
  | succ n ih =>
    rw [findLast, hp n (Nat.lt_succ_self n), Option.bind_some]
    exact ih fun j hj => hp j (Nat.lt_succ_of_lt hj)

/-- The first index with a property is found. -/
lemma findFirst_eq {p : ℕ → Option Bool} (hmi : m ≤ i) (hin : i < m + n) (hq : p i = some true)
    (hfirst : ∀ j, m ≤ j → j < i → p j = some false) : findFirst p m n = some (some i) := by
  induction n generalizing m with
  | zero => omega
  | succ n ih =>
    rw [findFirst]
    rcases Nat.lt_or_eq_of_le hmi with hlt | rfl
    · rw [hfirst m (Nat.le_refl m) hlt, Option.bind_some]
      exact ih hlt (by omega) fun j hj hji => hfirst j (by omega) hji
    · rw [hq, Option.bind_some, if_pos rfl]

lemma lsdaCount_take_le {a b : ℕ} (h : a ≤ b) :
    lsdaCount (entries.take a) ≤ lsdaCount (entries.take b) :=
  ((List.take_prefix_take_left h).filter _).length_le

/-- An entry with an LSDA stands among the LSDAs after those before it. -/
lemma getElem?_lsdas (hm : entries[m]? = some e) (he : e.lsda.isSome = true) :
    (lsdas entries)[lsdaCount (entries.take m)]? = some e ∧
      lsdaCount (entries.take (m + 1)) = lsdaCount (entries.take m) + 1 := by
  obtain ⟨hlt, rfl⟩ := List.getElem?_eq_some_iff.mp hm
  have hfilter : [entries[m]].filter (·.lsda.isSome) = [entries[m]] :=
    List.filter_eq_self.mpr fun x hx => by rw [List.mem_singleton.mp hx]; exact he
  constructor
  · have hsplit : lsdas entries = lsdas (entries.take m) ++
        ([entries[m]] ++ lsdas (entries.drop (m + 1))) := by
      conv_lhs => rw [← List.take_append_drop m entries, List.drop_eq_getElem_cons hlt,
        ← List.singleton_append]
      rw [lsdas, List.filter_append, List.filter_append, hfilter]
      rfl
    rw [hsplit]
    change (lsdas (entries.take m) ++ _)[(lsdas (entries.take m)).length]? = _
    rw [List.getElem?_append_right (Nat.le_refl _), Nat.sub_self]
    rfl
  · have hone : lsdaCount [entries[m]] = 1 := by
      rw [lsdaCount, hfilter]
      rfl
    rw [List.take_succ_eq_append_getElem hlt, lsdaCount_append, hone]

/-- What `build` is given: entries in ascending order, all below the end, with an LSDA exactly where
the encoding says so. -/
structure Table (entries : List UnwindEntry) (endAt : BitVec 32) : Prop where
  ascending : entries.Pairwise fun a b => a.offset < b.offset
  below : ∀ e ∈ entries, e.offset < endAt
  marked : ∀ e ∈ entries, e.encoding &&& hasLsda ≠ 0 ↔ e.lsda.isSome = true

/-- The offset of the last page fits the table's offsets. -/
def Fits (entries : List UnwindEntry) (personalities : List (BitVec 32)) : Prop :=
  pageOffset entries personalities (pageCount entries.length - 1) < 2 ^ 32

lemma offset_lt {l : List UnwindEntry} (h : l.Pairwise fun a b => a.offset < b.offset)
    {a b : UnwindEntry} (ha : l[i]? = some a) (hb : l[k]? = some b) (hik : i < k) :
    a.offset < b.offset := by
  obtain ⟨hi, rfl⟩ := List.getElem?_eq_some_iff.mp ha
  obtain ⟨hk, rfl⟩ := List.getElem?_eq_some_iff.mp hb
  exact List.pairwise_iff_getElem.mp h i k hi hk hik

lemma bound_eq (hk : k < pageCount entries.length) :
    ∃ e, entries[pageEntries * k]? = some e ∧ bound entries endAt k = e.offset := by
  have hlt := lt_length_of_lt_pageCount hk
  refine ⟨entries[pageEntries * k], List.getElem?_eq_getElem hlt, ?_⟩
  have hget : (pageAt entries k)[0]? = some entries[pageEntries * k] := by
    rw [getElem?_pageAt (by decide), Nat.add_zero, List.getElem?_eq_getElem hlt]
  rw [bound, if_pos hk, firstOffset, List.head?_eq_getElem?, hget]
  rfl

lemma toNat_index (hfits : headerSize + 4 * personalities.length < 2 ^ 32) :
    (u32 (headerSize + 4 * personalities.length)).toNat = headerSize + 4 * personalities.length := by
  rw [u32, BitVec.toNat_ofNat, Nat.mod_eq_of_lt hfits]

/-- Whether a first-level entry covers the program counter. -/
lemma coversPage_eq (hi : i < pageCount entries.length) :
    coversPage (build entries personalities endAt) (headerSize + 4 * personalities.length) pc i =
      some (decide (bound entries endAt i ≤ pc) && decide (pc < bound entries endAt (i + 1))) := by
  have hlo := @wordAt_index entries personalities endAt i hi.le 0 (by decide)
  have hhi := @wordAt_index entries personalities endAt (i + 1) hi 0 (by decide)
  rw [Nat.mul_zero, Nat.add_zero] at hlo hhi
  rw [coversPage, hlo, hhi]
  change (if bound entries endAt i ≤ pc then some (decide (pc < bound entries endAt (i + 1)))
    else some false) = _
  split_ifs with h
  · rw [decide_eq_true h, Bool.true_and]
  · rw [decide_eq_false h, Bool.false_and]

lemma toNat_pageOffset (hfits : Fits entries personalities) (hk : k < pageCount entries.length) :
    (u32 (pageOffset entries personalities k)).toNat = pageOffset entries personalities k := by
  unfold Fits pageOffset at hfits
  rw [u32, BitVec.toNat_ofNat, pageOffset, Nat.mod_eq_of_lt (by omega)]

lemma toNat_rangeOffset (hfits : Fits entries personalities) :
    (u32 (rangeOffset entries personalities k)).toNat = rangeOffset entries personalities k := by
  have hle : lsdaCount (entriesBefore entries k) ≤ lsdaCount entries :=
    ((List.take_sublist _ _).filter _).length_le
  unfold Fits pageOffset pagesOffset at hfits
  rw [u32, BitVec.toNat_ofNat, rangeOffset, Nat.mod_eq_of_lt (by unfold lsdaEntrySize at *; omega)]

/-- The offset and the LSDA of an entry of the LSDA index, counted from the range of a page. -/
lemma wordAt_range {j : ℕ} (he : (lsdas entries)[lsdaCount (entriesBefore entries k) + j]? = some e) :
    wordAt (build entries personalities endAt)
        (rangeOffset entries personalities k + lsdaEntrySize * j) = some e.offset ∧
      wordAt (build entries personalities endAt)
        (rangeOffset entries personalities k + lsdaEntrySize * j + 4) = e.lsda := by
  obtain ⟨l, hl⟩ := Option.isSome_iff_exists.mp (List.mem_filter.mp (List.mem_of_getElem? he)).2
  have hplace : rangeOffset entries personalities k + lsdaEntrySize * j =
      lsdaOffset entries personalities +
        lsdaEntrySize * (lsdaCount (entriesBefore entries k) + j) := by
    rw [rangeOffset]
    ring
  have h0 := @wordAt_lsda entries personalities endAt _ e he 0 (by decide)
  have h1 := @wordAt_lsda entries personalities endAt _ e he 1 (by decide)
  rw [lsdaWords, hl] at h0 h1
  rw [hplace, hl]
  exact ⟨h0, h1⟩

/-- The LSDA of a function is found in the range of its page. -/
lemma lsdaOf_eq (h : Table entries endAt) (hfits : Fits entries personalities)
    (hm : entries[m]? = some e) (he : e.lsda.isSome = true) :
    lsdaOf (build entries personalities endAt) (headerSize + 4 * personalities.length)
      (m / pageEntries) e.offset = e.lsda := by
  obtain ⟨hlt, -⟩ := List.getElem?_eq_some_iff.mp hm
  have hpage := div_lt_pageCount hlt
  obtain ⟨hget, hsucc⟩ := getElem?_lsdas hm he
  have hmod : m % pageEntries < pageEntries := Nat.mod_lt _ (by decide)
  have hdiv := Nat.div_add_mod m pageEntries
  -- The function's place among the LSDAs lies in the range of its page.
  have hfrom : lsdaCount (entriesBefore entries (m / pageEntries)) ≤ lsdaCount (entries.take m) :=
    lsdaCount_take_le (by omega)
  have hto : lsdaCount (entries.take m) + 1 ≤
      lsdaCount (entriesBefore entries (m / pageEntries + 1)) := by
    rw [← hsucc]
    exact lsdaCount_take_le (by rw [Nat.mul_succ]; omega)
  obtain ⟨t, ht⟩ := Nat.exists_eq_add_of_le hfrom
  rw [ht] at hget
  have hfind : findFirst (fun j => (wordAt (build entries personalities endAt)
      (rangeOffset entries personalities (m / pageEntries) + lsdaEntrySize * j)).map (· == e.offset)) 0
      (lsdaCount (entriesBefore entries (m / pageEntries + 1)) -
        lsdaCount (entriesBefore entries (m / pageEntries))) = some (some t) := by
    refine findFirst_eq (Nat.zero_le t) (by omega) ?_ fun j _ hj => ?_
    · rw [(wordAt_range hget).1]
      exact congrArg some (beq_self_eq_true e.offset)
    · obtain ⟨hl, -⟩ := List.getElem?_eq_some_iff.mp hget
      have hx := List.getElem?_eq_getElem
        (show lsdaCount (entriesBefore entries (m / pageEntries)) + j < (lsdas entries).length by omega)
      have hlt := offset_lt (h.ascending.sublist List.filter_sublist) hx hget (by omega)
      rw [(wordAt_range hx).1]
      refine congrArg some (beq_eq_false_iff_ne.mpr fun heq => ?_)
      rw [heq] at hlt
      exact BitVec.lt_irrefl _ hlt
  have hsteps : (rangeOffset entries personalities (m / pageEntries + 1) -
      rangeOffset entries personalities (m / pageEntries) + (lsdaEntrySize - 1)) / lsdaEntrySize =
      lsdaCount (entriesBefore entries (m / pageEntries + 1)) -
        lsdaCount (entriesBefore entries (m / pageEntries)) := by
    unfold rangeOffset lsdaEntrySize
    omega
  have hlo := @wordAt_index entries personalities endAt (m / pageEntries) hpage.le 2 (by decide)
  have hhi := @wordAt_index entries personalities endAt (m / pageEntries + 1) hpage 2 (by decide)
  rw [show 4 * 2 = 8 from rfl] at hlo hhi
  rw [lsdaOf, hlo, hhi]
  change (findFirst (fun j => (wordAt (build entries personalities endAt)
    ((u32 (rangeOffset entries personalities (m / pageEntries))).toNat + lsdaEntrySize * j)).map
      (· == e.offset)) 0 (((u32 (rangeOffset entries personalities (m / pageEntries + 1))).toNat -
      (u32 (rangeOffset entries personalities (m / pageEntries))).toNat + (lsdaEntrySize - 1)) /
      lsdaEntrySize)).bind (fun hit => hit.bind fun j => wordAt _
        ((u32 (rangeOffset entries personalities (m / pageEntries))).toNat + lsdaEntrySize * j + 4)) = _
  rw [toNat_rangeOffset hfits, toNat_rangeOffset hfits, hsteps, hfind, Option.bind_some,
    Option.bind_some, (wordAt_range hget).2]

/-- The last entry that starts no later than the program counter. -/
def Covers (entries : List UnwindEntry) (pc : BitVec 32) (m : ℕ) (e : UnwindEntry) : Prop :=
  entries[m]? = some e ∧ e.offset ≤ pc ∧ ∀ k a, entries[k]? = some a → m < k → pc < a.offset

/-- The function that covers the program counter is found in its page. -/
lemma searchPage_eq (h : Table entries endAt) (hfits : Fits entries personalities)
    (hm : Covers entries pc m e) :
    searchPage (build entries personalities endAt) (headerSize + 4 * personalities.length) pc
      (m / pageEntries) = some (some e) := by
  obtain ⟨hget, hle, hlater⟩ := hm
  obtain ⟨hlt, -⟩ := List.getElem?_eq_some_iff.mp hget
  have hpage := div_lt_pageCount hlt
  have hdiv := Nat.div_add_mod m pageEntries
  have hmod : m % pageEntries < pageEntries := Nat.mod_lt _ (by decide)
  have hindex := @wordAt_index entries personalities endAt (m / pageEntries) hpage.le 1 (by decide)
  have hkind := @wordAt_page entries personalities endAt (m / pageEntries) hpage 0 (Nat.succ_pos _)
  rw [Nat.mul_one] at hindex
  rw [Nat.mul_zero, Nat.add_zero] at hkind
  have hoff : (indexEntry entries personalities endAt (m / pageEntries))[1]? =
      some (u32 (pageOffset entries personalities (m / pageEntries))) := by
    rw [indexEntry, if_pos hpage]
    rfl
  have hlen : (BitVec.ofNat 16 (pageAt entries (m / pageEntries)).length).toNat =
      (pageAt entries (m / pageEntries)).length := by
    rw [BitVec.toNat_ofNat, Nat.mod_eq_of_lt]
    rw [length_pageAt]
    exact (Nat.min_le_left _ _).trans_lt (by decide)
  have hplen := @length_pageAt entries (m / pageEntries)
  -- The entry of the page at an index below its length.
  have hentry : ∀ k < (pageAt entries (m / pageEntries)).length, ∃ a,
      entries[pageEntries * (m / pageEntries) + k]? = some a ∧
      wordAt (build entries personalities endAt) (pageOffset entries personalities (m / pageEntries) +
        pageHeaderSize + k * pageEntrySize) = some a.offset := by
    intro k hk
    have hin : pageEntries * (m / pageEntries) + k < entries.length := by omega
    have hk' : k < pageEntries := by omega
    have hread := (@wordAt_entry entries personalities endAt _ _ (List.getElem?_eq_getElem hin)).1
    rw [Nat.mul_add_div (by decide), Nat.div_eq_of_lt hk', Nat.add_zero, Nat.mul_add_mod,
      Nat.mod_eq_of_lt hk'] at hread
    exact ⟨_, List.getElem?_eq_getElem hin, hread⟩
  have hfind : findLast (fun k => (wordAt (build entries personalities endAt)
      (pageOffset entries personalities (m / pageEntries) + pageHeaderSize + k * pageEntrySize)).map
        fun offset => decide (offset ≤ pc)) (pageAt entries (m / pageEntries)).length =
      some (some (m % pageEntries)) := by
    refine findLast_eq (q := fun k => (entries[pageEntries * (m / pageEntries) + k]?).any
      fun a => decide (a.offset ≤ pc)) (fun k hk => ?_) (by omega) ?_ fun k hmk hk => ?_
    · obtain ⟨a, ha, hread⟩ := hentry k hk
      rw [hread, ha]
      rfl
    · rw [hdiv, hget]
      exact decide_eq_true hle
    · obtain ⟨a, ha, -⟩ := hentry k hk
      rw [ha]
      exact decide_eq_false (BitVec.not_le.mpr (hlater _ a ha (by omega)))
  rw [searchPage, hindex, hoff, Option.bind_some, toNat_pageOffset hfits hpage, hkind]
  change (if (2 : BitVec 32) ≠ 2 then none else _) = _
  rw [if_neg (not_not.mpr rfl), halfAt_page hpage, Option.bind_some, hlen, hfind, Option.bind_some]
  dsimp only
  obtain ⟨hoffset, hencoding⟩ := @wordAt_entry entries personalities endAt m e hget
  rw [hoffset, hencoding, Option.bind_some, Option.bind_some]
  have hmarked := h.marked e (List.mem_of_getElem? hget)
  by_cases he : e.lsda.isSome = true
  · obtain ⟨lsda, hl⟩ := Option.isSome_iff_exists.mp he
    rw [if_pos (hmarked.mpr he), lsdaOf_eq h hfits hget he, hl, Option.map_some]
    obtain ⟨offset, encoding, _⟩ := e
    obtain rfl := hl
    rfl
  · rw [if_neg fun hne => he (hmarked.mp hne)]
    obtain ⟨offset, encoding, l⟩ := e
    obtain rfl : l = none := Option.not_isSome_iff_eq_none.mp he
    rfl

/-- What the search should find: the last entry that starts no later than `pc`, between the first
entry and the end; nothing elsewhere. -/
def covering (entries : List UnwindEntry) (endAt pc : BitVec 32) : Option UnwindEntry :=
  if entries.head?.any (fun e => decide (e.offset ≤ pc)) ∧ pc < endAt then
    entries.reverse.find? fun e => decide (e.offset ≤ pc)
  else none

/-- Nothing covers the program counter, or an entry does. -/
lemma covering_cases (h : Table entries endAt) :
    (covering entries endAt pc = none ∧
      ((∀ e ∈ entries, pc < e.offset) ∨ endAt ≤ pc)) ∨
    ∃ m e, covering entries endAt pc = some e ∧ Covers entries pc m e ∧ pc < endAt := by
  by_cases hend : pc < endAt
  · cases hfind : entries.reverse.find? fun e => decide (e.offset ≤ pc) with
    | none =>
      rw [List.find?_eq_none] at hfind
      have hall : ∀ e ∈ entries, pc < e.offset := fun e he => by
        have := hfind e (List.mem_reverse.mpr he)
        rwa [decide_eq_true_iff, BitVec.not_le] at this
      refine Or.inl ⟨?_, Or.inl hall⟩
      rw [covering, List.find?_eq_none.mpr hfind, ite_self]
    | some e =>
      obtain ⟨hle, before, after, hsplit, hbefore⟩ := List.find?_eq_some_iff_append.mp hfind
      rw [decide_eq_true_iff] at hle
      have hentries : entries = after.reverse ++ e :: before.reverse := by
        rw [← List.reverse_reverse entries, hsplit]
        simp
      refine Or.inr ⟨after.length, e, ?_, ⟨?_, hle, fun k a ha hk => ?_⟩, hend⟩
      · have hhead : entries.head?.any (fun e => decide (e.offset ≤ pc)) = true := by
          obtain ⟨first, hfirst⟩ : ∃ first, entries[0]? = some first :=
            ⟨_, List.getElem?_eq_getElem (by rw [hentries]; simp)⟩
          have he : entries[after.length]? = some e := by rw [hentries]; simp
          rw [List.head?_eq_getElem?, hfirst]
          refine decide_eq_true ?_
          rcases Nat.eq_zero_or_pos after.length with hz | hpos
          · rw [hz, hfirst] at he
            obtain rfl := Option.some.inj he
            exact hle
          · exact BitVec.le_trans (BitVec.le_of_lt (offset_lt h.ascending hfirst he hpos)) hle
        rw [covering, if_pos ⟨hhead, hend⟩, hfind]
      · rw [hentries]
        simp
      · have hmem : a ∈ before.reverse := by
          rw [hentries, List.getElem?_append_right (by simp; omega), List.length_reverse] at ha
          obtain ⟨d, hd⟩ := Nat.exists_eq_add_of_lt hk
          rw [show k - after.length = d + 1 by omega, List.getElem?_cons_succ] at ha
          exact List.mem_of_getElem? ha
        have := hbefore a (List.mem_reverse.mp hmem)
        rw [Bool.not_eq_true', decide_eq_false_iff_not, BitVec.not_le] at this
        exact this
  · refine Or.inl ⟨?_, Or.inr (BitVec.not_lt.mp hend)⟩
    rw [covering, if_neg fun hc => hend hc.2]

lemma bound_le_endAt (h : Table entries endAt) : bound entries endAt k ≤ endAt := by
  by_cases hk : k < pageCount entries.length
  · obtain ⟨e, he, hbound⟩ := @bound_eq entries endAt k hk
    rw [hbound]
    exact BitVec.le_of_lt (h.below e (List.mem_of_getElem? he))
  · rw [bound, if_neg hk]
    exact BitVec.le_refl _

/-- The search of the table, past the header. -/
lemma lookup_eq (hindex : headerSize + 4 * personalities.length < 2 ^ 32)
    (hcount : pageCount entries.length + 1 < 2 ^ 32) :
    lookup (build entries personalities endAt) pc =
      (findLast (coversPage (build entries personalities endAt)
        (headerSize + 4 * personalities.length) pc) (pageCount entries.length)).bind fun found =>
      match found with
      | none => some none
      | some first => searchPage (build entries personalities endAt)
        (headerSize + 4 * personalities.length) pc first := by
  have h0 := @wordAt_header entries personalities endAt 0 (by decide)
  have h5 := @wordAt_header entries personalities endAt 5 (by decide)
  have h6 := @wordAt_header entries personalities endAt 6 (by decide)
  have hnat : (u32 (pagesOf entries).length + 1).toNat = pageCount entries.length + 1 := by
    rw [length_pagesOf, u32, BitVec.toNat_add, BitVec.toNat_ofNat]
    change (pageCount entries.length % 2 ^ 32 + 1) % 2 ^ 32 = _
    omega
  have hne : u32 (pagesOf entries).length + 1 ≠ 0 := by
    intro hz
    rw [hz] at hnat
    exact absurd hnat (by simp)
  rw [show 4 * 0 = 0 from rfl] at h0
  rw [show 4 * 5 = 20 from rfl] at h5
  rw [show 4 * 6 = 24 from rfl] at h6
  rw [lookup, h0, h5, h6]
  change (if (1 : BitVec 32) ≠ 1 then none else if u32 (pagesOf entries).length + 1 = 0 then none
    else (findLast (coversPage _ (u32 (headerSize + 4 * personalities.length)).toNat pc)
      ((u32 (pagesOf entries).length + 1).toNat - 1)).bind _) = _
  rw [if_neg (not_not.mpr rfl), if_neg hne, hnat, toNat_index hindex]
  rfl

/-- **The search finds the function that covers a program counter**, with its own LSDA, for any
number of pages whose offsets fit; and the section has its size. -/
theorem lookup_build (h : Table entries endAt) (hfits : Fits entries personalities) (pc : BitVec 32) :
    lookup (build entries personalities endAt) pc = some (covering entries endAt pc) ∧
      (build entries personalities endAt).length =
        size entries.length personalities.length (lsdaCount entries) := by
  refine ⟨?_, length_build⟩
  have hsmall : headerSize + 4 * personalities.length < 2 ^ 32 ∧
      pageCount entries.length + 1 < 2 ^ 32 := by
    have := hfits
    unfold Fits pageOffset pagesOffset lsdaOffset indexEntrySize at this
    rw [length_pagesOf] at this
    omega
  rw [lookup_eq hsmall.1 hsmall.2]
  rcases @covering_cases entries endAt pc h with ⟨hnone, hout⟩ | ⟨m, e, hsome, hm, hend⟩
  · rw [hnone, findLast_none fun i hi => ?_]
    · rfl
    · rw [coversPage_eq hi]
      rcases hout with hall | hpast
      · obtain ⟨e, he, hbound⟩ := @bound_eq entries endAt i hi
        rw [hbound, decide_eq_false (BitVec.not_le.mpr (hall e (List.mem_of_getElem? he)))]
        rfl
      · rw [decide_eq_false (BitVec.not_lt.mpr (BitVec.le_trans (bound_le_endAt h) hpast)),
          Bool.and_false]
  · obtain ⟨hget, hle, hlater⟩ := hm
    obtain ⟨hlt, -⟩ := List.getElem?_eq_some_iff.mp hget
    have hpage := div_lt_pageCount hlt
    have hdiv := Nat.div_add_mod m pageEntries
    have hmod : m % pageEntries < pageEntries := Nat.mod_lt _ (by decide)
    have hfind : findLast (coversPage (build entries personalities endAt)
        (headerSize + 4 * personalities.length) pc) (pageCount entries.length) =
        some (some (m / pageEntries)) := by
      refine findLast_eq (fun i hi => coversPage_eq hi) hpage ?_ fun i hmi hi => ?_
      · rw [Bool.and_eq_true, decide_eq_true_iff, decide_eq_true_iff]
        constructor
        · obtain ⟨a, ha, hbound⟩ := @bound_eq entries endAt (m / pageEntries) hpage
          rw [hbound]
          rcases Nat.eq_zero_or_pos (m % pageEntries) with hz | hpos
          · rw [show pageEntries * (m / pageEntries) = m by omega, hget] at ha
            obtain rfl := Option.some.inj ha
            exact hle
          · exact BitVec.le_trans
              (BitVec.le_of_lt (offset_lt h.ascending ha hget (by omega))) hle
        · by_cases hnext : m / pageEntries + 1 < pageCount entries.length
          · obtain ⟨a, ha, hbound⟩ := @bound_eq entries endAt (m / pageEntries + 1) hnext
            rw [hbound]
            exact hlater _ a ha (by rw [Nat.mul_succ]; omega)
          · rw [bound, if_neg hnext]
            exact hend
      · obtain ⟨a, ha, hbound⟩ := @bound_eq entries endAt i hi
        have hmul : pageEntries * (m / pageEntries + 1) ≤ pageEntries * i :=
          Nat.mul_le_mul_left _ hmi
        rw [hbound, decide_eq_false (BitVec.not_le.mpr (hlater _ a ha
          (by rw [Nat.mul_succ] at hmul; omega))), Bool.false_and]
    rw [hfind, hsome, Option.bind_some]
    exact searchPage_eq h hfits ⟨hget, hle, hlater⟩

/-- Three functions, of which the second has an LSDA. -/
theorem lookup_build_three :
    lookup (build [⟨0x1000, 0x04000000, none⟩, ⟨0x1040, 0x44000000, some 0x9000⟩, ⟨0x1080, 0, none⟩]
      [] 0x10c0) 0x1050 = some (covering [⟨0x1000, 0x04000000, none⟩,
        ⟨0x1040, 0x44000000, some 0x9000⟩, ⟨0x1080, 0, none⟩] 0x10c0 0x1050) :=
  (lookup_build ⟨by decide, by decide, by decide⟩ (by unfold Fits; decide) 0x1050).1

example : covering [⟨0x1000, 0x04000000, none⟩, ⟨0x1040, 0x44000000, some 0x9000⟩,
    ⟨0x1080, 0, none⟩] 0x10c0 0x1050 = some ⟨0x1040, 0x44000000, some 0x9000⟩ := by decide

/-! ## A table too long -/

/-- A function every eight bytes. -/
def everyEight (n : ℕ) : List UnwindEntry := (List.range n).map fun i => ⟨u32 (8 * i), 0, none⟩

/-- Functions every eight bytes are what `build` is given, where the last offset fits. -/
lemma table_everyEight (hn : 8 * n < 2 ^ 32) : Table (everyEight n) (u32 (8 * n)) := by
  refine ⟨?_, fun e he => ?_, fun e he => ?_⟩
  · rw [everyEight, List.pairwise_map]
    refine List.pairwise_lt_range.imp_of_mem fun {a b} _ hb hab => ?_
    have hb := List.mem_range.mp hb
    rw [BitVec.lt_def, u32, u32, BitVec.toNat_ofNat, BitVec.toNat_ofNat, Nat.mod_eq_of_lt (by omega),
      Nat.mod_eq_of_lt (by omega)]
    omega
  · obtain ⟨i, hi, rfl⟩ := List.mem_map.mp he
    have hi := List.mem_range.mp hi
    rw [BitVec.lt_def, u32, u32, BitVec.toNat_ofNat, BitVec.toNat_ofNat, Nat.mod_eq_of_lt (by omega),
      Nat.mod_eq_of_lt hn]
    omega
  · obtain ⟨i, -, rfl⟩ := List.mem_map.mp he
    simp

/-- **In a table of 1045514 pages the last one is not found**: its offset in the index wraps round to
160, where the index itself stands, so that the search of the last function panics. -/
theorem lookup_build_long :
    Table (everyEight 534257654) (u32 4274061232) ∧
    (everyEight 534257654)[534257653]? = some ⟨4274061224, 0, none⟩ ∧
    lookup (build (everyEight 534257654) [] (u32 4274061232)) 4274061224 = none := by
  have htable := @table_everyEight 534257654 (by norm_num)
  have hlen : (everyEight 534257654).length = 534257654 := by simp [everyEight]
  have hpages : pageCount (everyEight 534257654).length = 1045514 := by rw [hlen]; rfl
  have hget : ∀ i < 534257654, (everyEight 534257654)[i]? = some ⟨u32 (8 * i), 0, none⟩ := by
    intro i hi
    rw [everyEight, List.getElem?_map, List.getElem?_range hi]
    rfl
  have hlsda : lsdaCount (everyEight 534257654) = 0 := by
    rw [lsdaCount, List.length_eq_zero_iff, List.filter_eq_nil_iff]
    intro e he
    obtain ⟨i, -, rfl⟩ := List.mem_map.mp he
    simp
  have hoff : pageOffset (everyEight 534257654) [] 1045513 = 2 ^ 32 + 160 := by
    rw [pageOffset, pagesOffset, lsdaOffset, length_pagesOf, hpages, hlsda]
    rfl
  have hbound : ∀ k < 1045514, bound (everyEight 534257654) (u32 4274061232) k = u32 (8 * (511 * k)) := by
    intro k hk
    obtain ⟨e, he, hbound⟩ := @bound_eq (everyEight 534257654) (u32 4274061232) k (hpages ▸ hk)
    rw [show pageEntries = 511 from rfl, hget _ (by omega)] at he
    obtain rfl := Option.some.inj he
    exact hbound
  have hlast : bound (everyEight 534257654) (u32 4274061232) 1045514 = u32 4274061232 := by
    rw [bound, hpages, if_neg (Nat.lt_irrefl _)]
  refine ⟨htable, ?_, ?_⟩
  · rw [hget _ (by norm_num)]
    rfl
  · have hfind : findLast (coversPage (build (everyEight 534257654) [] (u32 4274061232)) 28 4274061224)
        1045514 = some (some 1045513) := by
      refine findLast_eq (fun i hi => coversPage_eq (hpages ▸ hi)) (by norm_num) ?_ fun j hj hj' => by
        omega
      rw [hbound _ (by norm_num), hlast]
      decide
    have hindex := @wordAt_index (everyEight 534257654) [] (u32 4274061232) 1045513
      (by rw [hpages]; norm_num) 1 (by decide)
    have hkind := @wordAt_index (everyEight 534257654) [] (u32 4274061232) 11
      (by rw [hpages]; norm_num) 0 (by decide)
    have hpage : (indexEntry (everyEight 534257654) [] (u32 4274061232) 1045513)[1]? = some 160 := by
      rw [indexEntry, hpages, if_pos (by norm_num), hoff]
      rfl
    have hfirst : (indexEntry (everyEight 534257654) [] (u32 4274061232) 11)[0]? = some 44968 := by
      rw [indexEntry, hbound 11 (by norm_num)]
      rfl
    rw [lookup_eq (by decide) (by rw [hpages]; norm_num), hpages]
    have h28 : headerSize + 4 * ([] : List (BitVec 32)).length = 28 := rfl
    rw [h28] at hindex hkind ⊢
    rw [show 4 * 1 = 4 from rfl] at hindex
    rw [show entryAt 28 11 + 4 * 0 = (160 : BitVec 32).toNat from rfl] at hkind
    rw [hfind, Option.bind_some]
    dsimp only
    rw [searchPage, hindex, hpage, Option.bind_some, hkind, hfirst, Option.bind_some,
      if_pos (by decide)]

end Badc.UnwindInfo
