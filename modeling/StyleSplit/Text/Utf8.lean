import StyleSplit.Text.Basic

/-! Text files: the UTF-8 form of a text, and the reading of line ends. A surrogate
has no UTF-8 form, so encoding can fail; decoding refuses overlong forms, surrogates
and everything above the last code point, so it undoes encoding and nothing else. -/
namespace StyleSplit

/-- The contents of a file. -/
abbrev Bytes := List UInt8

namespace Text

def encodePoint? (c : CodePoint) : Option Bytes :=
  if c < 0x80 then some [c.toUInt8]
  else if c < 0x800 then some [(0xC0 + c / 64).toUInt8, (0x80 + c % 64).toUInt8]
  else if c.isSurrogate then none
  else if c < 0x10000 then
    some [(0xE0 + c / 4096).toUInt8, (0x80 + c / 64 % 64).toUInt8, (0x80 + c % 64).toUInt8]
  else if c < 0x110000 then
    some [(0xF0 + c / 262144).toUInt8, (0x80 + c / 4096 % 64).toUInt8,
      (0x80 + c / 64 % 64).toUInt8, (0x80 + c % 64).toUInt8]
  else none

def encode? : Text → Option Bytes
  | [] => some []
  | c :: rest => do return (← encodePoint? c) ++ (← encode? rest)

/-- The payload of a byte that continues a code point. -/
def continuation? (b : UInt8) : Option Nat :=
  if b.toNat / 64 == 2 then some (b.toNat % 64) else none

def decode? : Bytes → Option Text
  | [] => some []
  | a :: rest =>
    if a.toNat < 0x80 then (decode? rest).map (a.toNat :: ·)
    else match rest with
      | [] => none
      | b :: rest => do
        let low ← continuation? b
        if 0xC2 ≤ a.toNat && a.toNat < 0xE0 then
          (decode? rest).map (((a.toNat - 0xC0) * 64 + low) :: ·)
        else match rest with
          | [] => none
          | c :: rest => do
            let low := low * 64 + (← continuation? c)
            let two := (a.toNat - 0xE0) * 4096 + low
            if 0xE0 ≤ a.toNat && a.toNat < 0xF0 then
              if two < 0x800 || CodePoint.isSurrogate two then none
              else (decode? rest).map (two :: ·)
            else match rest with
              | [] => none
              | d :: rest => do
                let low := low * 64 + (← continuation? d)
                let three := (a.toNat - 0xF0) * 262144 + low
                if 0xF0 ≤ a.toNat && a.toNat < 0xF5 then
                  if three < 0x10000 || 0x110000 ≤ three then none
                  else (decode? rest).map (three :: ·)
                else none

/-- Every line end as a line feed: a carriage return is one, together with a line
feed behind it. -/
def normalizeLines : Text → Text
  | [] => []
  | c :: rest =>
    if c == CodePoint.carriageReturn then
      match rest with
      | [] => [CodePoint.newline]
      | d :: rest' =>
        if d == CodePoint.newline then CodePoint.newline :: normalizeLines rest'
        else CodePoint.newline :: normalizeLines (d :: rest')
    else c :: normalizeLines rest

end Text

end StyleSplit
