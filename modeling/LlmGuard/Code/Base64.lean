import LlmGuard.Spec.Bytes

/-! # `utils/Base64.hpp`: base64url without padding -/

namespace LlmGuard.Base64

def alpha : Bytes := ascii "ABCDEFGHIJKLMNOPQRSTUVWXYZabcdefghijklmnopqrstuvwxyz0123456789-_"

/-- `alpha[i]`. -/
def alphaAt (i : UInt32) : Byte := alpha.getD i.toNat 0

/-! ## `url_encode` -/

/-- `while (bits >= 6)`: what is written, and the bits that stay. -/
def drain (buf : UInt32) : Nat → Bytes × Nat
  | bits + 6 => ((alphaAt (buf >>> bits.toUInt32 &&& 0x3F) :: (drain buf bits).1), (drain buf bits).2)
  | bits => ([], bits)

def encodeLoop (buf : UInt32) (bits : Nat) : Bytes → Bytes
  | [] => if 0 < bits then [alphaAt (buf <<< (6 - bits).toUInt32 &&& 0x3F)] else []
  | c :: s =>
    let buf := buf <<< 8 ||| c.toUInt32
    let (out, bits) := drain buf (bits + 8)
    out ++ encodeLoop buf bits s

def urlEncode (s : Bytes) : Bytes := encodeLoop 0 0 s

/-! ## `url_decode` -/

/-- The table starts with `-1` everywhere, and the alphabet is written into it. -/
def table (c : Byte) : Int := (List.range 64).foldl (fun v i => if alpha.getD i 0 = c then (i : Int) else v) (-1)

/-- Padding and line breaks are skipped. -/
def ignored (c : Byte) : Bool := c = ch '=' || c = ch '\n' || c = ch '\r'

def decodeLoop (buf : UInt32) (bits ndigits : Nat) : Bytes → Except String Bytes
  | [] =>
    if ndigits % 4 = 1 then .error "invalid base64url length"
    else if 0 < bits ∧ buf &&& ((1 <<< bits.toUInt32) - 1) ≠ 0 then .error "invalid base64url padding bits"
    else .ok []
  | c :: s =>
    if ignored c then decodeLoop buf bits ndigits s
    else if table c < 0 then .error "invalid base64url"
    else
      let buf := buf <<< 6 ||| (table c).toNat.toUInt32
      let bits := bits + 6
      if 8 ≤ bits then
        (decodeLoop buf (bits - 8) (ndigits + 1) s).map ((buf >>> (bits - 8).toUInt32 &&& 0xFF).toUInt8 :: ·)
      else decodeLoop buf bits (ndigits + 1) s

def urlDecode (s : Bytes) : Except String Bytes := decodeLoop 0 0 0 s

end LlmGuard.Base64
