import Mathlib.Logic.Function.Basic
import Rinha.Common.Decimal
import Rinha.Dena.Model.StringBuffer
/-!
# `escape.cpp`, `escape.hpp`

What the store protocol does with text: values are escaped so that no
control character is left in them, tokens end at a tab, numbers are
decimal. The functions work on pointers, which are addresses here; a range
to be read goes from an address up to another.
-/

namespace Rinha
namespace Dena

def specialCharEscapePrefix : UInt8 := 0x01
def specialCharNoescapeMin : UInt8 := 0x10
def specialCharEscapeShift : UInt8 := 0x40

def tab : UInt8 := 9
def newline : UInt8 := 10

/-! ## Escaping -/

/-- `escape_string(char *&wp, …)`: the memory and where `wp` ends. -/
def escapeString : (ℕ → UInt8) → ℕ → Bytes → (ℕ → UInt8) × ℕ
  | mem, wp, [] => (mem, wp)
  | mem, wp, c :: rest =>
      if c ≥ specialCharNoescapeMin then escapeString (Function.update mem wp c) (wp + 1) rest
      else
        let mem := Function.update mem wp specialCharEscapePrefix
        let wp := wp + 1
        escapeString (Function.update mem wp (c + specialCharEscapeShift)) (wp + 1) rest

/-- `escape_string(string_buffer &, …)`. -/
def StringBuffer.escapeString (b : StringBuffer) (bytes : Bytes) : StringBuffer :=
  let ar := b.makeSpace (bytes.length * 2)
  let written := Dena.escapeString ar.buffer ar.endOffset bytes
  { ar with buffer := written.1 }.spaceWrote (written.2 - ar.endOffset)

/-- `unescape_string(char *&wp, …)` of the `n` bytes from `start` on: the
memory, where `wp` ends, and what it returns. `wp` may be `start`. -/
def unescapeString : ℕ → (ℕ → UInt8) → ℕ → ℕ → (ℕ → UInt8) × ℕ × Bool
  | 0, mem, wp, _ => (mem, wp, true)
  | n + 1, mem, wp, start =>
      if mem start ≠ specialCharEscapePrefix then
        unescapeString n (Function.update mem wp (mem start)) (wp + 1) (start + 1)
      else
        match n with
        | 0 => (mem, wp, false)
        | n + 1 =>
            if mem (start + 1) < specialCharEscapeShift then (mem, wp, false)
            else
              unescapeString n
                (Function.update mem wp (mem (start + 1) - specialCharEscapeShift))
                (wp + 1) (start + 2)

/-! ## Tokens -/

/-- `memchr_char` of the `n` bytes from `start` on. -/
def memchr (mem : ℕ → UInt8) (c : UInt8) : ℕ → ℕ → Option ℕ
  | 0, _ => none
  | n + 1, start => if mem start = c then some start else memchr mem c n (start + 1)

def isNullExpression (mem : ℕ → UInt8) (start finish : ℕ) : Bool :=
  finish = start + 1 && mem start = 0

/-- `read_token`: where `start` moves to. -/
def readToken (mem : ℕ → UInt8) (start finish : ℕ) : ℕ :=
  (memchr mem tab (finish - start) start).getD finish

/-- `skip_one`. -/
def skipOne (start finish : ℕ) : ℕ := if start ≠ finish then start + 1 else start

/-! ## Numbers -/

/-- The loop of `read_ui32`, which passes over what is not a digit. -/
def ui32 (token : Bytes) : UInt32 :=
  token.foldl
    (fun v ch => if 48 ≤ ch && ch ≤ 57 then v * 10 + UInt32.ofNat (ch.toNat - 48) else v) 0

/-- `read_ui32`: the number, and where `start` moves to. -/
def readUi32 (mem : ℕ → UInt8) (start finish : ℕ) : UInt32 × ℕ :=
  let nEnd := readToken mem start finish
  (ui32 (Memory.slice mem start (nEnd - start)), nEnd)

/-- `append_uint32`: `snprintf` into 64 bytes of space. -/
def StringBuffer.appendUint32 (b : StringBuffer) (v : UInt32) : StringBuffer :=
  let text := Decimal.ofNat v.toNat
  ((b.makeSpace 64).fill text).spaceWrote text.length

end Dena
end Rinha
