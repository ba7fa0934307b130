/- digest: Serialised integers in network byte order, read back by the unserial functions. -/

import Destor.Library.Bytes

set_option autoImplicit false
set_option relaxedAutoImplicit false

namespace Destor

open Library.Bytes

/-- `serial_int32`. -/
def serInt32 (x : Int) : List UInt8 := (leInt 4 x).reverse

/-- `unserial_int32` of the four bytes at the pointer. -/
def unserInt32 (bs : List UInt8) : Int := ofLeInt bs.reverse

/-- `serial_int64`. -/
def serInt64 (x : Int) : List UInt8 := (leInt 8 x).reverse

/-- `unserial_int64` of the eight bytes at the pointer. -/
def unserInt64 (bs : List UInt8) : Int := ofLeInt bs.reverse

section RoundTrip

variable {x : Int}

@[simp] theorem length_serInt32 (x : Int) : (serInt32 x).length = 4 := by
  simp [serInt32]

@[simp] theorem length_serInt64 (x : Int) : (serInt64 x).length = 8 := by
  simp [serInt64]

theorem unserInt32_serInt32 (hlo : -2 ^ 31 ≤ x) (hhi : x < 2 ^ 31) :
    unserInt32 (serInt32 x) = x := by
  have hcodec : ofLeInt (leInt 4 x) = x := ofLeInt_leInt (by decide) (by omega) (by omega)
  simpa [unserInt32, serInt32] using hcodec

theorem unserInt64_serInt64 (hlo : -2 ^ 63 ≤ x) (hhi : x < 2 ^ 63) :
    unserInt64 (serInt64 x) = x := by
  have hcodec : ofLeInt (leInt 8 x) = x := ofLeInt_leInt (by decide) (by omega) (by omega)
  simpa [unserInt64, serInt64] using hcodec

end RoundTrip

end Destor
