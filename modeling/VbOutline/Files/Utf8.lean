/-! Reading bytes as UTF-8. Bytes that are not UTF-8 do not stop the reading: each longest run of bytes
that starts a character but cannot complete it, and each byte that starts none, is read as the
replacement character. -/

namespace VbOutline.Files.Utf8

/-- A character of which some bytes have been read. -/
structure Pending where
  /-- The bits read so far. -/
  bits : Nat
  /-- How many bytes are missing after the next one. -/
  missing : Nat
  /-- The least value the next byte can have. -/
  least : UInt8 := 0x80
  /-- The greatest value the next byte can have. -/
  greatest : UInt8 := 0xBF
deriving DecidableEq

/-- Stands for bytes that are not UTF-8. -/
def replacement : Char := '\uFFFD'

/-- Reads a byte where a character starts. The bounds on the second byte leave out overlong forms,
surrogates and what lies beyond Unicode. -/
def startWith (b : UInt8) : List Char × Option Pending :=
  if b < 0x80 then ([Char.ofNat b.toNat], none)
  else if b < 0xC2 then ([replacement], none)
  else if b < 0xE0 then ([], some { bits := b.toNat - 0xC0, missing := 0 })
  else if b = 0xE0 then ([], some { bits := 0, missing := 1, least := 0xA0 })
  else if b = 0xED then ([], some { bits := 0xD, missing := 1, greatest := 0x9F })
  else if b < 0xF0 then ([], some { bits := b.toNat - 0xE0, missing := 1 })
  else if b = 0xF0 then ([], some { bits := 0, missing := 2, least := 0x90 })
  else if b < 0xF4 then ([], some { bits := b.toNat - 0xF0, missing := 2 })
  else if b = 0xF4 then ([], some { bits := 4, missing := 2, greatest := 0x8F })
  else ([replacement], none)

/-- Reads a byte: the characters that are complete with it, and what is pending afterwards. -/
def step : Option Pending → UInt8 → List Char × Option Pending
  | none, b => startWith b
  | some p, b =>
    if p.least ≤ b ∧ b ≤ p.greatest then
      let bits := p.bits * 64 + (b.toNat - 0x80)
      match p.missing with
      | 0 => ([Char.ofNat bits], none)
      | missing + 1 => ([], some { bits := bits, missing := missing })
    else
      let (chars, pending) := startWith b
      (replacement :: chars, pending)

/-- Reads bytes after a pending character; one that is still pending at the end is replaced. -/
def decodeFrom : Option Pending → List UInt8 → List Char
  | none, [] => []
  | some _, [] => [replacement]
  | pending, b :: rest =>
    let (chars, pending) := step pending b
    chars ++ decodeFrom pending rest

/-- The text of some bytes. -/
def decode (bytes : List UInt8) : List Char := decodeFrom none bytes

end VbOutline.Files.Utf8
