/-! Reading the bytes of a file as text: strict UTF-8, and one line feed for every line end. -/

namespace HashIf.Utf8

/-- A byte that continues a sequence and lies between two bounds. -/
def continues (b : UInt8) (lo hi : UInt8) : Bool := lo ≤ b && b ≤ hi

def low (b : UInt8) : Nat := b.toNat % 64

/-- The well-formed sequence at the head of the bytes: its code point and its further bytes.
Overlong forms, surrogates and numbers beyond the last code point are not well-formed. -/
def sequence? : List UInt8 → Option (Nat × Nat)
  | [] => none
  | a :: bs =>
    if a < 0x80 then some (a.toNat, 0)
    else if a < 0xc2 then none
    else if a < 0xe0 then
      match bs with
      | b :: _ => if continues b 0x80 0xbf then some (a.toNat % 32 * 64 + low b, 1) else none
      | _ => none
    else if a < 0xf0 then
      match bs with
      | b :: c :: _ =>
        if continues b (if a = 0xe0 then 0xa0 else 0x80) (if a = 0xed then 0x9f else 0xbf) &&
            continues c 0x80 0xbf then
          some ((a.toNat % 16 * 64 + low b) * 64 + low c, 2)
        else none
      | _ => none
    else if a < 0xf5 then
      match bs with
      | b :: c :: d :: _ =>
        if continues b (if a = 0xf0 then 0x90 else 0x80) (if a = 0xf4 then 0x8f else 0xbf) &&
            continues c 0x80 0xbf && continues d 0x80 0xbf then
          some (((a.toNat % 8 * 64 + low b) * 64 + low c) * 64 + low d, 3)
        else none
      | _ => none
    else none

/-- Decodes the bytes at an offset, in front of which `read` stands backwards. -/
def decodeFrom (offset : Nat) (read : List Char) : List UInt8 → Except Nat (List Char)
  | [] => .ok read.reverse
  | b :: bs =>
    match sequence? (b :: bs) with
    | none => .error offset
    | some (code, more) => decodeFrom (offset + 1 + more) (Char.ofNat code :: read) (bs.drop more)
  termination_by bs => bs.length
  decreasing_by simp only [List.length_cons, List.length_drop]; omega

/-- The characters of well-formed bytes, or else the offset of the first byte that begins no
well-formed sequence. -/
def decode (bs : List UInt8) : Except Nat (List Char) := decodeFrom 0 [] bs

end HashIf.Utf8

namespace HashIf

/-- The text with a line feed for each line end, be it a line feed, a carriage return or both;
`read` is the part in front of it, backwards. -/
def lineFeedsFrom (read : List Char) : List Char → List Char
  | [] => read.reverse
  | '\r' :: '\n' :: cs => lineFeedsFrom ('\n' :: read) cs
  | '\r' :: cs => lineFeedsFrom ('\n' :: read) cs
  | c :: cs => lineFeedsFrom (c :: read) cs

def lineFeeds (cs : List Char) : List Char := lineFeedsFrom [] cs

end HashIf
