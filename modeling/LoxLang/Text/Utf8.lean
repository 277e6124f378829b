/-!
UTF-8 text as a sequence of pieces: well formed characters, maximal ill formed runs, and a tail that
stops inside a character. `pieces` splits any bytes, `decodeLossy` writes the replacement character
for each piece that is no character, and `decode` accepts only bytes in which every piece is one and
otherwise names the first that is not.
-/
namespace LoxLang.Utf8

/-- One part of a byte sequence. The sizes count bytes. -/
inductive Piece where
  | character (value : Char)
  /-- A longest run that starts like a character and cannot be continued to one. -/
  | malformed (size : Nat)
  /-- The input ends inside a character. -/
  | truncated (size : Nat)
  deriving DecidableEq, Repr

/-- A character that has begun: the bits read, the bytes read, the bytes still owed and the range of
the next one. -/
structure Opening where
  bits : Nat
  read : Nat
  owed : Nat
  low : UInt8
  high : UInt8

/-- The opening that a lead byte makes. The range of the second byte excludes overlong forms,
surrogates and values beyond the last code point. -/
def Opening.ofLead? (b : UInt8) : Option Opening :=
  if 0xC2 ≤ b ∧ b ≤ 0xDF then some ⟨b.toNat % 32, 1, 1, 0x80, 0xBF⟩
  else if b = 0xE0 then some ⟨0, 1, 2, 0xA0, 0xBF⟩
  else if b = 0xED then some ⟨13, 1, 2, 0x80, 0x9F⟩
  else if 0xE1 ≤ b ∧ b ≤ 0xEF then some ⟨b.toNat % 16, 1, 2, 0x80, 0xBF⟩
  else if b = 0xF0 then some ⟨0, 1, 3, 0x90, 0xBF⟩
  else if 0xF1 ≤ b ∧ b ≤ 0xF3 then some ⟨b.toNat % 8, 1, 3, 0x80, 0xBF⟩
  else if b = 0xF4 then some ⟨4, 1, 3, 0x80, 0x8F⟩
  else none

/-- Whether a byte continues an opening. -/
def Opening.admits (o : Opening) (b : UInt8) : Bool :=
  o.low ≤ b && b ≤ o.high

/-- The opening after one more byte; only the second byte has a narrowed range. -/
def Opening.push (o : Opening) (b : UInt8) : Opening :=
  ⟨o.bits * 64 + b.toNat % 64, o.read + 1, o.owed - 1, 0x80, 0xBF⟩

/-- What a byte between two pieces does: it is a piece of its own, or it opens a character. -/
def start (b : UInt8) : Piece ⊕ Opening :=
  if b < 0x80 then .inl (.character (Char.ofNat b.toNat))
  else match Opening.ofLead? b with
    | some o => .inr o
    | none => .inl (.malformed 1)

/-- Splits bytes into pieces, `pending` being the character that has begun. -/
def piecesFrom : (pending : Option Opening) → List UInt8 → List Piece
  | none, [] => []
  | some o, [] => [.truncated o.read]
  | none, b :: rest =>
    match start b with
    | .inl piece => piece :: piecesFrom none rest
    | .inr o => piecesFrom (some o) rest
  | some o, b :: rest =>
    if o.admits b then
      let o' := o.push b
      if o'.owed = 0 then .character (Char.ofNat o'.bits) :: piecesFrom none rest
      else piecesFrom (some o') rest
    else
      .malformed o.read ::
        match start b with
        | .inl piece => piece :: piecesFrom none rest
        | .inr o' => piecesFrom (some o') rest

/-- The pieces of a byte sequence, from first to last. -/
def pieces (bytes : List UInt8) : List Piece :=
  piecesFrom none bytes

/-- The character written for a piece: U+FFFD stands for one that is ill formed. -/
def Piece.shown : Piece → Char
  | .character c => c
  | .malformed _ => '\uFFFD'
  | .truncated _ => '\uFFFD'

/-- The text of any byte sequence, each ill formed piece shown as one replacement character. -/
def decodeLossy (bytes : List UInt8) : String :=
  String.ofList ((pieces bytes).map Piece.shown)

/-- The first fault of bytes that are not UTF-8, and the index of its first byte. -/
inductive Fault where
  | malformed (size index : Nat)
  | truncated (index : Nat)
  deriving DecidableEq, Repr

def Fault.message : Fault → String
  | .malformed size index => s!"invalid utf-8 sequence of {size} bytes from index {index}"
  | .truncated index => s!"incomplete utf-8 byte sequence from index {index}"

/-- The characters of pieces that start at `index`, or the first fault. -/
def charactersFrom (index : Nat) : List Piece → Except Fault (List Char)
  | [] => .ok []
  | .character c :: rest => (charactersFrom (index + c.utf8Size) rest).map (c :: ·)
  | .malformed size :: _ => .error (.malformed size index)
  | .truncated _ :: _ => .error (.truncated index)

/-- The text of well formed bytes. -/
def decode (bytes : List UInt8) : Except Fault String :=
  (charactersFrom 0 (pieces bytes)).map String.ofList

end LoxLang.Utf8
