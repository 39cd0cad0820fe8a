import Badc.Linker.ArchiveTrip
import Badc.Lib.Fallible

/-!
# The archive reader on every byte string

Whatever sizes, offsets and counts the headers of an archive claim, the reader answers: no sum overflows, no round is
missing (`walkFrom_noPanic`, `memberSymbols_noPanic`, `arm64xFrom_noPanic`).  A size is read from ten bytes, so it has
ten digits at most (`parseDec_lt`), malformed bytes being replaced by what is no digit.
-/

namespace Badc.Archive

open Attributes (Halt Run utf8 fromUtf8)

variable {b : Text} {body blob : List Byte} {n : ℕ} {w w' : Walk}

/-- A computation that does not abort. -/
def NoPanic {ε α : Type} (x : Run ε α) : Prop := x ≠ .error .panic

section

variable {ε α β : Type} {x : Run ε α} {f : α → Run ε β}

lemma NoPanic.bind (hx : NoPanic x) (hf : ∀ a, x = .ok a → NoPanic (f a)) : NoPanic (x >>= f) := by
  intro h
  rcases bind_eq_error.mp h with h | ⟨a, ha, h⟩
  · exact hx h
  · exact hf a ha h

lemma noPanic_ok (a : α) : NoPanic (.ok a : Run ε α) := fun h => nomatch h

lemma noPanic_err (e : ε) : NoPanic (.error (.err e) : Run ε α) := fun h => nomatch Except.error.inj h

end

/-! ## Sizes -/

lemma chunk_pos (h : b ≠ []) : 0 < (chunk b).1 := by
  obtain ⟨x, b, rfl⟩ := List.exists_cons_of_ne_nil h
  rw [chunk]
  exact Nat.add_pos_left Nat.one_pos _

/-- Replacing makes no digit and takes three bytes for one at most. -/
lemma replaceFrom_le (fuel : ℕ) (b : Text) :
    (replaceFrom fuel b).countP isDigit ≤ b.countP isDigit ∧ (replaceFrom fuel b).length ≤ 3 * b.length := by
  induction fuel generalizing b with
  | zero => simp [replaceFrom]
  | succ fuel ih =>
    cases b with
    | nil => simp [replaceFrom]
    | cons x b =>
      obtain ⟨hdigits, hlen⟩ := ih ((x :: b).drop (chunk (x :: b)).1)
      have hpos := chunk_pos (List.cons_ne_nil x b)
      have hsplit := congrArg (List.countP isDigit) (List.take_append_drop (chunk (x :: b)).1 (x :: b))
      rw [List.countP_append] at hsplit
      rw [List.length_drop] at hlen
      have hnone : List.countP isDigit [(0xEF : Byte), 0xBF, 0xBD] = 0 := rfl
      rw [replaceFrom]
      rw [List.countP_append, List.length_append]
      split
      · rw [List.length_take]
        omega
      · rw [hnone]
        simp only [List.length_cons, List.length_nil] at hlen ⊢
        omega

lemma fromUtf8Lossy_le (b : Text) :
    (fromUtf8Lossy b).countP isDigit ≤ b.countP isDigit ∧ (fromUtf8Lossy b).length ≤ 3 * b.length := by
  unfold fromUtf8Lossy
  split
  · exact ⟨le_rfl, by omega⟩
  · exact replaceFrom_le _ _

lemma trimFront_suffix (chars : List Text) (fuel : ℕ) (b : Text) : trimFront chars fuel b <:+ b := by
  induction fuel generalizing b with
  | zero => exact List.suffix_rfl
  | succ fuel ih =>
    rw [trimFront]
    split
    · exact List.suffix_rfl
    · exact (ih _).trans (List.drop_suffix _ _)

lemma countP_trim_le (b : Text) : (trim b).countP isDigit ≤ b.countP isDigit := by
  rw [trim, List.countP_reverse]
  refine ((trimFront_suffix _ _ _).sublist.countP_le).trans ?_
  rw [List.countP_reverse]
  exact (trimFront_suffix _ _ _).sublist.countP_le

/-- Digits spell less than the power of their number. -/
lemma digitsValue_lt (h : ∀ x ∈ b, isDigit x = true) : digitsValue b < 10 ^ b.length := by
  induction b using List.reverseRecOn with
  | nil => decide
  | append_singleton b d ih =>
    have hd := h d (by simp)
    simp only [isDigit, Bool.and_eq_true, decide_eq_true_eq] at hd
    have := ih fun x hx => h x (List.mem_append_left _ hx)
    rw [digitsValue, List.foldl_append, ← digitsValue, List.length_append, List.length_singleton, pow_succ]
    simp only [List.foldl_cons, List.foldl_nil]
    omega

/-- A number that is read has the digits of its text at most. -/
lemma parseUsize_lt (h : parseUsize b = some n) : n < 10 ^ b.countP isDigit := by
  unfold parseUsize at h
  have hsub : (if b.head? = some 43 then b.tail else b).countP isDigit ≤ b.countP isDigit := by
    split
    · exact (List.tail_sublist b).countP_le
    · exact le_rfl
  generalize (if b.head? = some 43 then b.tail else b) = digits at h hsub
  dsimp only at h
  split at h
  · rename_i hdigits
    obtain rfl := Option.some.inj h
    have hall := List.all_eq_true.mp hdigits.2.1
    refine (digitsValue_lt hall).trans_le (Nat.pow_le_pow_right (by decide) ?_)
    rwa [← List.countP_eq_length.mpr hall]
  · cases h

/-- A number read from a field of ten bytes. -/
lemma parseDec_lt {field : Text} (hlen : field.length ≤ 10) (h : parseDec (trimAscii field) = .ok n) : n < 10 ^ 10 := by
  have hcount : (trim (trimAscii field)).countP isDigit ≤ 10 := by
    refine (countP_trim_le _).trans ((fromUtf8Lossy_le _).1.trans ?_)
    exact List.countP_le_length.trans ((List.rdropWhile_prefix _ _).length_le.trans hlen)
  unfold parseDec at h
  dsimp only at h
  split at h
  · obtain rfl := Except.ok.inj h
    decide
  · split at h
    · rename_i m hparse
      obtain rfl := Except.ok.inj h
      exact (parseUsize_lt hparse).trans_le (Nat.pow_le_pow_right (by decide) hcount)
    · cases h

lemma readHeader_ok {off : ℕ} {h : ArHeader} (hr : readHeader blob off = .ok h) :
    off + 60 ≤ blob.length ∧ h.size.length ≤ 10 := by
  unfold readHeader at hr
  split at hr
  · cases hr
  · rename_i hlt
    obtain rfl := Except.ok.inj hr
    exact ⟨Nat.not_lt.mp hlt, List.length_take_le _ _⟩

/-! ## The walk -/

/-- Decoding a name answers. -/
lemma decodeName_noPanic (table : List Byte) (raw : Text) (body : List Byte) : NoPanic (decodeName table raw body) := by
  have hlong : ∀ off, NoPanic (extractLongName table off) := fun off => by
    unfold extractLongName
    split
    · exact noPanic_err _
    · split
      · exact noPanic_err _
      · dsimp only
        split
        · exact noPanic_ok _
        · exact noPanic_err _
  unfold decodeName
  split
  · unfold splitBsdName
    split
    · exact noPanic_err _
    · split
      · exact noPanic_err _
      · dsimp only
        split
        · exact noPanic_ok _
        · exact noPanic_err _
  · split
    · split
      · exact noPanic_err _
      · exact (hlong _).bind fun _ _ => noPanic_ok _
    · exact noPanic_ok _

/-- Taking a member answers, and leaves the cursor. -/
lemma takeMember_noPanic (thin : Bool) (w : Walk) (at_ : ℕ) (raw : Text) (body : List Byte) :
    NoPanic (takeMember thin w at_ raw body) ∧ ∀ w', takeMember thin w at_ raw body = .ok w' → w'.cursor = w.cursor := by
  unfold takeMember
  split
  · exact ⟨noPanic_ok _, fun w' h => Except.ok.inj h ▸ rfl⟩
  · split
    · exact ⟨noPanic_ok _, fun w' h => Except.ok.inj h ▸ rfl⟩
    · refine ⟨(decodeName_noPanic _ _ _).bind fun x _ => ?_, fun w' h => ?_⟩
      · obtain ⟨name, body⟩ := x
        dsimp only
        split <;> exact noPanic_ok _
      · obtain ⟨⟨name, body⟩, -, h⟩ := bind_eq_ok.mp h
        dsimp only at h
        split at h <;> exact Except.ok.inj h ▸ rfl

/-- Reading a member answers, and the cursor goes on past its header. -/
lemma readMember_noPanic (thin : Bool) (hlen : blob.length < 2 ^ 63) :
    NoPanic (readMember blob thin w) ∧ ∀ w', readMember blob thin w = .ok w' → w.cursor + 60 ≤ w'.cursor := by
  unfold readMember
  have hheader : NoPanic (readHeader blob w.cursor) := by
    unfold readHeader
    split
    · exact noPanic_err _
    · exact noPanic_ok _
  have hdec : ∀ s, NoPanic (parseDec s) := fun s => by
    unfold parseDec
    dsimp only
    split
    · exact noPanic_ok _
    · split
      · exact noPanic_ok _
      · exact noPanic_err _
  refine ⟨hheader.bind fun hdr hhdr => ?_, fun w' h => ?_⟩
  · obtain ⟨hoff, hsize⟩ := readHeader_ok hhdr
    dsimp only
    split
    · exact noPanic_err _
    · refine (hdec _).bind fun size hsz => ?_
      have hlt := parseDec_lt hsize hsz
      have hadd : add w.cursor arHeaderSize = .ok (w.cursor + 60) := if_pos (by rw [arHeaderSize]; omega)
      have hadd' : add (w.cursor + 60) size = .ok (w.cursor + 60 + size) := if_pos (by omega)
      rw [hadd]
      simp only [bind, Except.bind]
      split
      · rw [hadd']
        dsimp only
        split
        · exact noPanic_err _
        · exact (takeMember_noPanic _ _ _ _ _).1
      · exact (takeMember_noPanic _ _ _ _ _).1
  · obtain ⟨hdr, hhdr, h⟩ := bind_eq_ok.mp h
    dsimp only at h
    split at h
    · cases h
    · obtain ⟨size, hsz, h⟩ := bind_eq_ok.mp h
      obtain ⟨cursor, hcursor, h⟩ := bind_eq_ok.mp h
      have hc : cursor = w.cursor + 60 := by
        unfold add at hcursor
        split at hcursor
        · exact (Except.ok.inj hcursor).symm
        · cases hcursor
      split at h
      · obtain ⟨stop, hstop, h⟩ := bind_eq_ok.mp h
        have hs : stop = cursor + size := by
          unfold add at hstop
          split at hstop
          · exact (Except.ok.inj hstop).symm
          · cases hstop
        split at h
        · cases h
        · rw [(takeMember_noPanic _ _ _ _ _).2 w' h, hs, hc]
          exact Nat.le_add_right _ _
      · rw [(takeMember_noPanic _ _ _ _ _).2 w' h, hc]

/-- The walk answers within the rounds the blob pays for. -/
lemma walkFrom_noPanic {thin : Bool} {fuel : ℕ} (hlen : blob.length < 2 ^ 63) (hfuel : blob.length - w.cursor < fuel) :
    NoPanic (walkFrom blob thin fuel w) := by
  induction fuel generalizing w with
  | zero => exact absurd hfuel (Nat.not_lt_zero _)
  | succ fuel ih =>
    rw [walkFrom]
    split
    · exact noPanic_ok _
    · dsimp only
      split
      · exact noPanic_ok _
      · obtain ⟨hno, hgo⟩ := readMember_noPanic (w := { w with cursor := w.cursor + w.cursor % 2 }) thin hlen
        refine hno.bind fun w' hw' => ih ?_
        have := hgo w' hw'
        dsimp only at this
        omega

/-! ## The symbol index -/

lemma cstr_length {at_ : ℕ} {name : Text} (h : cstr body at_ = some name) :
    at_ ≤ body.length ∧ name.length ≤ 3 * body.length := by
  unfold cstr at h
  split at h
  · rename_i hle
    obtain ⟨stop, -, rfl⟩ := Option.map_eq_some_iff.mp h
    refine ⟨hle, (fromUtf8Lossy_le _).2.trans (Nat.mul_le_mul_left 3 ?_)⟩
    exact (List.length_take_le' _ _).trans ((List.length_drop).trans_le (Nat.sub_le _ _))
  · cases h

lemma need_noPanic {α : Type} (x : Option α) : NoPanic (need x) := by
  cases x with
  | none => exact noPanic_err ()
  | some a => exact noPanic_ok a

lemma need_eq_ok {α : Type} {x : Option α} {a : α} (h : need x = .ok a) : x = some a := by
  cases x with
  | none => cases h
  | some a' => exact congrArg some (Except.ok.inj h)

/-- The entries of a SysV index are read without overflow. -/
lemma sysVEntries_noPanic (hlen : 3 * body.length < 2 ^ 63) (w left k at_ : ℕ) :
    NoPanic (sysVEntries body w left k at_) := by
  induction left generalizing k at_ with
  | zero => exact noPanic_ok _
  | succ left ih =>
    rw [sysVEntries]
    refine (need_noPanic _).bind fun name hname => ?_
    obtain ⟨hat, hl⟩ := cstr_length (need_eq_ok hname)
    have hplus : plus at_ name.length = .ok (at_ + name.length) := if_pos (by omega)
    have hplus' : plus (at_ + name.length) 1 = .ok (at_ + name.length + 1) := if_pos (by omega)
    rw [hplus]
    simp only [bind, Except.bind, hplus']
    exact (need_noPanic _).bind fun _ _ => (ih _ _).bind fun _ _ => noPanic_ok _

/-- So are those of a BSD index. -/
lemma bsdEntries_noPanic {w size : ℕ} (strings : ℕ) (hw : 0 < w) (hfits : w + size < 2 ^ 64) (left k : ℕ)
    (hk : 2 * w * (k + left) ≤ size) : NoPanic (bsdEntries body w strings left k) := by
  induction left generalizing k with
  | zero => exact noPanic_ok _
  | succ left ih =>
    have hle : 2 * w * k + 2 * w ≤ size := by
      refine le_trans ?_ hk
      rw [← Nat.mul_succ]
      exact Nat.mul_le_mul_left _ (by omega)
    have hplus : plus w (2 * w * k) = .ok (w + 2 * w * k) := if_pos (by omega)
    have hplus' : plus (w + 2 * w * k) w = .ok (w + 2 * w * k + w) := if_pos (by omega)
    rw [bsdEntries, hplus]
    simp only [bind, Except.bind, hplus']
    refine (need_noPanic _).bind fun _ _ => (need_noPanic _).bind fun _ _ => (need_noPanic _).bind fun _ _ => ?_
    exact (ih (k + 1) (by rwa [Nat.add_assoc, Nat.add_comm 1 left])).bind fun _ _ => noPanic_ok _

/-- The index is read without overflow. -/
lemma memberSymbols_noPanic (hlen : 3 * body.length < 2 ^ 63) (form : IndexForm) (headers : List ℕ) :
    NoPanic (memberSymbols form body headers) := by
  have hpush : ∀ (entries : List (ℕ × Text)) (out : List (List Text)), NoPanic (entries.foldlM (fun out e => do
      return out.modify (← need (headers.idxOf? e.1)) (· ++ [e.2])) out) := by
    intro entries
    induction entries with
    | nil => exact fun out => noPanic_ok out
    | cons e entries ih =>
      intro out
      rw [List.foldlM_cons]
      exact ((need_noPanic _).bind fun _ _ => noPanic_ok _).bind fun out' _ => ih out'
  have hentries : NoPanic (indexEntries form body) := by
    cases form with
    | sysV wide =>
      exact (need_noPanic _).bind fun _ _ => (need_noPanic _).bind fun _ _ => sysVEntries_noPanic hlen _ _ _ _
    | bsd wide =>
      refine (need_noPanic _).bind fun size _ => (need_noPanic _).bind fun strings hstrings => ?_
      have hfits : (if wide then 8 else 4) + size < 2 ^ 64 := by
        by_contra hge
        have := need_eq_ok hstrings
        rw [fits, if_neg hge] at this
        cases this
      have hw : 0 < if wide then 8 else 4 := by split <;> decide
      refine bsdEntries_noPanic strings hw hfits _ 0 ?_
      rw [Nat.zero_add]
      exact Nat.mul_div_le size _
  refine hentries.bind fun entries _ => ?_
  split
  · exact noPanic_err ()
  · exact hpush _ _

/-- Looking for the ARM64X index answers within the rounds the blob pays for. -/
lemma arm64xFrom_noPanic {fuel at_ : ℕ} (hlen : blob.length < 2 ^ 63) (hfuel : blob.length - at_ < fuel) :
    NoPanic (arm64xFrom blob fuel at_) := by
  induction fuel generalizing at_ with
  | zero => exact absurd hfuel (Nat.not_lt_zero _)
  | succ fuel ih =>
    rw [arm64xFrom]
    split
    · exact noPanic_ok _
    · rename_i h hh
      obtain ⟨hoff, hsize⟩ := readHeader_ok hh
      split
      · exact noPanic_ok _
      · rename_i size hsz
        have hlt := parseDec_lt hsize hsz
        dsimp only
        split
        · exact noPanic_ok _
        · split
          · have h1 : add arHeaderSize size = .ok (60 + size) := if_pos (by rw [arHeaderSize]; omega)
            have h2 : add (60 + size) (size % 2) = .ok (60 + size + size % 2) := if_pos (by omega)
            have h3 : add at_ (60 + size + size % 2) = .ok (at_ + (60 + size + size % 2)) := if_pos (by omega)
            rw [h1]
            simp only [bind, Except.bind, h2, h3]
            exact ih (by omega)
          · exact noPanic_ok _

lemma symbolNames_eq_nil {symbols : List (ℕ × List Text)} : symbolNames symbols = [] ↔ ∀ s ∈ symbols, s.2 = [] := by
  simp [symbolNames]

/-- **Archives round-trip.**  What is written of members with proper names comes back, the names and bytes in order and
the symbols by member; an index that lists nothing is taken as none.  And on every byte string the reader answers. -/
theorem archives_roundTrip :
    (∀ (members : List ArchiveMember) (symbols : List (ℕ × List Text)),
      (∀ m ∈ members, IsName m.name ∧ m.bytes.length < 10 ^ 10) →
      (∀ s ∈ symbols, s.1 < members.length ∧ ∀ n ∈ s.2, isUtf8 n = true ∧ 0 ∉ n) →
      (indexOf members symbols).2.length < 10 ^ 10 → (nameForms members []).2.length < 10 ^ 10 →
      (writeArchive members symbols).length < 2 ^ 63 →
      ∃ w form body, parseArchiveMembers (writeArchive members symbols) = .ok w ∧
        (w.members.map fun m => (m.1, m.2.1)) = (members.map fun m => (m.name, .inline m.bytes)) ∧
        w.index = some (form, body) ∧
        memberSymbols form body (w.members.map (·.2.2)) =
          if ∀ s ∈ symbols, s.2 = [] then .error (.err ())
          else .ok ((List.range members.length).map (symbolsOf symbols))) ∧
    (∀ blob : List Byte, 3 * blob.length < 2 ^ 63 →
      NoPanic (parseArchiveMembers blob) ∧ NoPanic (isArm64xArchive blob) ∧
        ∀ form headers, NoPanic (memberSymbols form blob headers)) := by
  refine ⟨fun members symbols hn hs hindex htable hlen => ?_, fun blob hlen => ⟨?_, ?_, ?_⟩⟩
  · obtain ⟨w, hw, hmembers, hi⟩ := parseArchiveMembers_writeArchive hn hindex htable hlen
    have hlength : (layoutOf members symbols).2.length = members.length := by simp [layoutOf_headers]
    refine ⟨w, _, _, hw, ?_, hi, ?_⟩
    · rw [hmembers, List.map_zipWith]
      exact List.ext_getElem (by simp [hlength]) fun i _ _ => by simp
    · have hheaders : w.members.map (·.2.2) = (layoutOf members symbols).2 := by
        rw [hmembers, List.map_zipWith]
        exact List.ext_getElem (by simp [hlength]) fun i _ _ => by simp
      rw [hheaders, memberSymbols_writeArchive hs hlen]
      simp only [symbolNames_eq_nil]
  · unfold parseArchiveMembers
    dsimp only
    split
    · exact noPanic_err _
    · exact walkFrom_noPanic (by omega) (by dsimp only; omega)
  · unfold isArm64xArchive
    split
    · exact arm64xFrom_noPanic (by omega) (by omega)
    · exact noPanic_ok _
  · exact memberSymbols_noPanic hlen

/-- Two members, one with a long name, and their symbols. -/
def twoMembers : List ArchiveMember := [⟨ascii "a.o", [1, 2, 3]⟩, ⟨ascii "a_rather_long_name.o", [4]⟩]

def theirSymbols : List (ℕ × List Text) := [(0, [ascii "f"]), (1, [ascii "g", ascii "h"])]

/-- Their archive comes back. -/
theorem archives_roundTrip_two : ∃ w form body, parseArchiveMembers (writeArchive twoMembers theirSymbols) = .ok w ∧
    (w.members.map fun m => (m.1, m.2.1)) = (twoMembers.map fun m => (m.name, .inline m.bytes)) ∧
    w.index = some (form, body) ∧
    memberSymbols form body (w.members.map (·.2.2)) =
      if ∀ s ∈ theirSymbols, s.2 = [] then .error (.err ())
      else .ok ((List.range twoMembers.length).map (symbolsOf theirSymbols)) := by
  refine archives_roundTrip.1 twoMembers theirSymbols (fun m hm => ?_) (fun s hs => ?_) (by decide +kernel)
    (by decide +kernel) ?_
  · have h : m.name.all (fun x => x.toNat < 128) = true ∧ m.name ≠ [] ∧ 47 ∉ m.name ∧ 10 ∉ m.name ∧ 0 ∉ m.name ∧
        isBsdSymbolIndex m.name = false ∧ m.name ≠ ascii "#1" ∧ m.bytes.length < 10 := by
      revert m
      decide
    obtain ⟨h1, h2, h3, h4, h5, h6, h7, h8⟩ := h
    refine ⟨⟨isUtf8_of_ascii fun x hx => by simpa using List.all_eq_true.mp h1 x hx, h2, h3, h4, h5, h6, h7⟩, ?_⟩
    exact h8.trans (by decide)
  · have h : s.1 < twoMembers.length ∧ ∀ n ∈ s.2, n.all (fun x => x.toNat < 128) = true ∧ 0 ∉ n := by
      revert s
      decide
    refine ⟨h.1, fun n hn => ⟨isUtf8_of_ascii fun x hx => ?_, (h.2 n hn).2⟩⟩
    simpa using List.all_eq_true.mp (h.2 n hn).1 x hx
  · rw [writeArchive_eq, List.length_append, length_preamble, length_chunks (length_nameForms _ _)]
    decide +kernel

/-- One member and no symbol: the index lists nothing for it, and the reader says that there is none. -/
theorem memberSymbols_unlisted : ¬ ∃ w form body, parseArchiveMembers (writeArchive [⟨ascii "a", []⟩] []) = .ok w ∧
    w.index = some (form, body) ∧ memberSymbols form body (w.members.map (·.2.2)) = .ok [[]] := by
  have hlen : (writeArchive [⟨ascii "a", []⟩] []).length < 2 ^ 63 := by
    rw [writeArchive_eq, List.length_append, length_preamble, length_chunks (length_nameForms _ _)]
    decide +kernel
  have hn : ∀ m ∈ [(⟨ascii "a", []⟩ : ArchiveMember)], IsName m.name ∧ m.bytes.length < 10 ^ 10 := by
    intro m hm
    obtain rfl := List.mem_singleton.mp hm
    exact ⟨⟨isUtf8_of_ascii (by decide), by decide, by decide, by decide, by decide, by decide, by decide⟩, by norm_num⟩
  obtain ⟨w, hw, hmembers, hi⟩ := parseArchiveMembers_writeArchive hn (by decide +kernel) (by decide +kernel) hlen
  rintro ⟨w', form, body, hw', hi', hsym⟩
  obtain rfl := Except.ok.inj (hw.symm.trans hw')
  obtain ⟨rfl, rfl⟩ := Prod.mk.inj (Option.some.inj (hi.symm.trans hi'))
  have hnone := @memberSymbols_writeArchive [⟨ascii "a", []⟩] [] (fun s hs => nomatch hs) hlen
  have hheaders : w.members.map (·.2.2) = (layoutOf [⟨ascii "a", []⟩] []).2 := by
    rw [hmembers, layoutOf_headers]
    rfl
  rw [hheaders, hnone, if_pos (show symbolNames [] = [] from rfl)] at hsym
  cases hsym

end Badc.Archive
