import Badc.Linker.GnuProperty

/-!
# The walk over a section stays inside it

The walk over the notes of a section as the program runs it: every slice is checked against the bytes
that are there, every sum against the 64 bits of an address, and the rounds are not counted.  On a
section as long as memory can hold, no check fails and the walk finds the properties that `properties`
finds (`walkSection_eq`).
-/

namespace Badc.GnuProperty

/-- The bytes from `i` to `j`, where both are in the buffer. -/
def sliceOf (note : List Byte) (i j : ℕ) : Option (List Byte) :=
  if i ≤ j ∧ j ≤ note.length then some ((note.drop i).take (j - i)) else none

/-- The 32-bit number at `i`, where it is in the buffer. -/
def readU32 (note : List Byte) (i : ℕ) : Option ℕ :=
  if 2 ^ 64 ≤ i + 4 then none else (sliceOf note i (i + 4)).map fun _ => leNat note i 4

/-- The properties of a descriptor, from one place on. -/
def walkDesc (note : List Byte) (descEnd align d : ℕ) (out : List Property) : Option (List Property) :=
  if 2 ^ 64 ≤ d + 8 then none
  else if d + 8 ≤ descEnd then
    (readU32 note d).bind fun ty => (readU32 note (d + 4)).bind fun dsz =>
      if 2 ^ 64 ≤ d + 8 + dsz then none
      else if descEnd < d + 8 + dsz then some out
      else (sliceOf note (d + 8) (d + 8 + dsz)).bind fun data =>
        if 2 ^ 64 ≤ d + (8 + nextMultipleOf dsz align) then none
        else walkDesc note descEnd align (d + (8 + nextMultipleOf dsz align)) (out ++ [⟨ty, data⟩])
  else some out
termination_by descEnd - d

lemma nextMultipleOf_bounds {n align : ℕ} (hm : 0 < align) :
    n ≤ nextMultipleOf n align ∧ nextMultipleOf n align < n + align := by
  have hdiv := Nat.div_add_mod (n + (align - 1)) align
  have hmod := Nat.mod_lt (n + (align - 1)) hm
  unfold nextMultipleOf
  rw [Nat.mul_comm]
  omega

/-- The properties of the notes, from one place on. -/
def walkNotes (note : List Byte) (align off : ℕ) (out : List Property) : Option (List Property) :=
  if 2 ^ 64 ≤ off + 12 then none
  else if off + 12 ≤ note.length then
    (readU32 note off).bind fun namesz => (readU32 note (off + 4)).bind fun descsz =>
      (readU32 note (off + 8)).bind fun ntype =>
        let nameEnd := off + 12 + nextMultipleOf namesz 4
        if 2 ^ 64 ≤ nameEnd then none
        else
          -- the end of the descriptor is a checked sum, which ends the walk where it fails
          let descEnd := nameEnd + descsz
          if 2 ^ 64 ≤ descEnd ∨ note.length < descEnd then some out
          else
            let found :=
              if ntype = ntGnuPropertyType0 ∧ 4 ≤ namesz then
                (sliceOf note (off + 12) (off + 15)).bind fun name =>
                  if name = gnuName then walkDesc note descEnd align nameEnd out else some out
              else some out
            found.bind fun out =>
              if 2 ^ 64 ≤ nextMultipleOf descEnd 4 then none
              else walkNotes note align (nextMultipleOf descEnd 4) out
  else some out
termination_by note.length - off
decreasing_by
  have hnext := nextMultipleOf_bounds (n := off + 12 + nextMultipleOf namesz 4 + descsz) (by norm_num : 0 < 4)
  omega

/-- The properties of a section. -/
def walkSection (note : List Byte) (align : ℕ) : Option (List Property) := walkNotes note align 0 []

variable {note : List Byte} {align d off descEnd n : ℕ} {out : List Property}

lemma sliceOf_eq (hle : off ≤ d) (hd : d ≤ note.length) :
    sliceOf note off d = some ((note.drop off).take (d - off)) := if_pos ⟨hle, hd⟩

lemma readU32_eq (hnote : note.length < 2 ^ 63) (hoff : off + 4 ≤ note.length) :
    readU32 note off = some (leNat note off 4) := by
  rw [readU32, if_neg (by omega), sliceOf_eq (by omega) hoff]
  rfl

/-- The walk over a descriptor inside its section. -/
lemma walkDesc_eq (hnote : note.length < 2 ^ 63) (halign : 0 < align) (hsmall : align < 2 ^ 32)
    (hend : descEnd ≤ note.length) (hd : d < 2 ^ 63 + 2 ^ 34) (hfuel : descEnd - d ≤ n) :
    walkDesc note descEnd align d out =
      some (whileSome (propertyStep note descEnd align) n (d, out)).2 := by
  induction n generalizing d out with
  | zero =>
    rw [walkDesc, if_neg (by omega), if_neg (by omega)]
    rfl
  | succ n ih =>
    rw [walkDesc, if_neg (by omega)]
    by_cases hroom : d + 8 ≤ descEnd
    · rw [if_pos hroom, readU32_eq hnote (by omega), readU32_eq hnote (by omega)]
      have hdsz : leNat note (d + 4) 4 < 256 ^ 4 := leNat_lt
      obtain ⟨hge, hlt⟩ := nextMultipleOf_bounds (n := leNat note (d + 4) 4) halign
      dsimp only [Option.bind_some]
      rw [if_neg (by omega)]
      by_cases hover : descEnd < d + 8 + leNat note (d + 4) 4
      · have hstep : propertyStep note descEnd align (d, out) = none := by
          simp [propertyStep, hroom, hover]
        rw [if_pos hover, whileSome_of_none hstep]
      · have hstep : propertyStep note descEnd align (d, out) =
            some (d + (8 + nextMultipleOf (leNat note (d + 4) 4) align),
              out ++ [⟨leNat note d 4, (note.drop (d + 8)).take (leNat note (d + 4) 4)⟩]) := by
          simp [propertyStep, hroom, hover]
        rw [if_neg hover, sliceOf_eq (by omega) (by omega), Nat.add_sub_cancel_left]
        dsimp only [Option.bind_some]
        rw [if_neg (by omega), ih (by omega) (by omega), whileSome_of_some hstep]
    · have hstep : propertyStep note descEnd align (d, out) = none := by
        simp [propertyStep, hroom]
      rw [if_neg hroom, whileSome_of_none hstep]

/-- The walk over the notes of a section. -/
lemma walkNotes_eq (hnote : note.length < 2 ^ 63) (halign : 0 < align) (hsmall : align < 2 ^ 32)
    (hoff : off < 2 ^ 63 + 4) (hfuel : note.length - off ≤ n) :
    walkNotes note align off out = some (whileSome (noteStep note align) n (off, out)).2 := by
  induction n generalizing off out with
  | zero =>
    rw [walkNotes, if_neg (by omega), if_neg (by omega)]
    rfl
  | succ n ih =>
    rw [walkNotes, if_neg (by omega)]
    by_cases hroom : off + 12 ≤ note.length
    · rw [if_pos hroom, readU32_eq hnote (by omega), readU32_eq hnote (by omega),
        readU32_eq hnote (by omega)]
      have hnamesz : leNat note off 4 < 256 ^ 4 := leNat_lt
      have hdescsz : leNat note (off + 4) 4 < 256 ^ 4 := leNat_lt
      obtain ⟨hname, hname'⟩ := nextMultipleOf_bounds (n := leNat note off 4) (by norm_num : 0 < 4)
      dsimp only [Option.bind_some]
      rw [if_neg (by omega)]
      by_cases hover : note.length < off + 12 + nextMultipleOf (leNat note off 4) 4 + leNat note (off + 4) 4
      · have hstep : noteStep note align (off, out) = none := by
          simp [noteStep, hroom, hover]
        rw [if_pos (.inr hover), whileSome_of_none hstep]
      · obtain ⟨hnext, hnext'⟩ := nextMultipleOf_bounds
          (n := off + 12 + nextMultipleOf (leNat note off 4) 4 + leNat note (off + 4) 4)
          (by norm_num : 0 < 4)
        have hstep : noteStep note align (off, out) =
            some (nextMultipleOf (off + 12 + nextMultipleOf (leNat note off 4) 4 + leNat note (off + 4) 4) 4,
              if leNat note (off + 8) 4 = ntGnuPropertyType0 ∧ 4 ≤ leNat note off 4 ∧
                  (note.drop (off + 12)).take 3 = gnuName then
                (whileSome (propertyStep note
                  (off + 12 + nextMultipleOf (leNat note off 4) 4 + leNat note (off + 4) 4) align)
                  note.length (off + 12 + nextMultipleOf (leNat note off 4) 4, out)).2
              else out) := by
          simp [noteStep, hroom, hover]
        rw [if_neg (by omega), whileSome_of_some hstep, ← ih (by omega) (by omega)]
        by_cases hnamed : leNat note (off + 8) 4 = ntGnuPropertyType0 ∧ 4 ≤ leNat note off 4
        · have hslice : off + 15 - (off + 12) = 3 := by omega
          rw [if_pos hnamed, sliceOf_eq (by omega) (by omega), hslice]
          dsimp only [Option.bind_some]
          by_cases hgnu : (note.drop (off + 12)).take 3 = gnuName
          · rw [if_pos hgnu, if_pos ⟨hnamed.1, hnamed.2, hgnu⟩,
              walkDesc_eq (n := note.length) hnote halign hsmall (by omega) (by omega) (by omega)]
            dsimp only [Option.bind_some]
            rw [if_neg (by omega)]
          · rw [if_neg hgnu, if_neg fun h => hgnu h.2.2]
            dsimp only [Option.bind_some]
            rw [if_neg (by omega)]
        · rw [if_neg hnamed, if_neg fun h => hnamed ⟨h.1, h.2.1⟩]
          dsimp only [Option.bind_some]
          rw [if_neg (by omega)]
    · have hstep : noteStep note align (off, out) = none := by
        simp [noteStep, hroom]
      rw [if_neg hroom, whileSome_of_none hstep]

/-- **Walking a section ends and stays inside it.** -/
theorem walkSection_eq (hnote : note.length < 2 ^ 63) (halign : 0 < align) (hsmall : align < 2 ^ 32) :
    walkSection note align = some (properties note align) :=
  walkNotes_eq hnote halign hsmall (by norm_num) le_rfl

end Badc.GnuProperty
