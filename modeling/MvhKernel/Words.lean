-- Machine words for `grind`.
import Mathlib.Data.Nat.Notation

namespace words

attribute [grind =] UInt8.lt_iff_toNat_lt UInt8.le_iff_toNat_le UInt8.toNat_add UInt8.toNat_sub UInt8.toNat_mul
  UInt8.toNat_div UInt8.toNat_mod UInt8.toNat_ofNat' UInt8.toNat_toUInt16 UInt8.toNat_toUInt32 UInt8.toNat_toUInt64

attribute [grind =] UInt16.lt_iff_toNat_lt UInt16.le_iff_toNat_le UInt16.toNat_add UInt16.toNat_sub UInt16.toNat_mul
  UInt16.toNat_div UInt16.toNat_mod UInt16.toNat_ofNat' UInt16.toNat_toUInt8 UInt16.toNat_toUInt32
  UInt16.toNat_toUInt64

attribute [grind =] UInt32.lt_iff_toNat_lt UInt32.le_iff_toNat_le UInt32.toNat_add UInt32.toNat_sub UInt32.toNat_mul
  UInt32.toNat_div UInt32.toNat_mod UInt32.toNat_ofNat' UInt32.toNat_toUInt8 UInt32.toNat_toUInt16
  UInt32.toNat_toUInt64

attribute [grind =] UInt64.lt_iff_toNat_lt UInt64.le_iff_toNat_le UInt64.toNat_add UInt64.toNat_sub UInt64.toNat_mul
  UInt64.toNat_div UInt64.toNat_mod UInt64.toNat_ofNat' UInt64.toNat_toUInt8 UInt64.toNat_toUInt16
  UInt64.toNat_toUInt32

grind_pattern UInt8.toNat_lt => n.toNat
grind_pattern UInt16.toNat_lt => n.toNat
grind_pattern UInt32.toNat_lt => n.toNat
grind_pattern UInt64.toNat_lt => n.toNat

/-! Two words are the same if their numbers are. -/

@[ext, grind ext] theorem byte_ext {a b : UInt8} (h : a.toNat = b.toNat) : a = b := UInt8.toNat_inj.mp h

@[ext, grind ext] theorem word16_ext {a b : UInt16} (h : a.toNat = b.toNat) : a = b := UInt16.toNat_inj.mp h

@[ext, grind ext] theorem word32_ext {a b : UInt32} (h : a.toNat = b.toNat) : a = b := UInt32.toNat_inj.mp h

@[ext, grind ext] theorem word64_ext {a b : UInt64} (h : a.toNat = b.toNat) : a = b := UInt64.toNat_inj.mp h

end words
