import SceneCodegen.Text.Quoted

/-!
# Reading and writing UTF-8

A byte sequence is cut into pieces, each either the encoding of one character or a longest
beginning of one that goes wrong. The strict reading refuses the first wrong piece and says why;
the forgiving one puts the replacement character in its place.
-/
namespace SceneCodegen.Text.Utf8

inductive Fault | startByte | continuation | endOfData
  deriving DecidableEq, Repr

def Fault.reason : Fault → String
  | .startByte => "invalid start byte"
  | .continuation => "invalid continuation byte"
  | .endOfData => "unexpected end of data"

/-- Some bytes with the character they stand for, or with what is wrong with them. -/
structure Piece where
  bytes : List UInt8
  content : Except Fault Char

/-- How many bytes follow a lead byte. -/
def tailLength (lead : Nat) : Option Nat :=
  if lead < 0x80 then some 0
  else if lead < 0xC2 then none
  else if lead < 0xE0 then some 1
  else if lead < 0xF0 then some 2
  else if lead < 0xF5 then some 3
  else none

/-- The bytes allowed right after a lead byte: no overlong form, no surrogate, nothing past the
last code point. -/
def secondByteRange (lead : Nat) : Nat × Nat :=
  if lead == 0xE0 then (0xA0, 0xBF)
  else if lead == 0xED then (0x80, 0x9F)
  else if lead == 0xF0 then (0x90, 0xBF)
  else if lead == 0xF4 then (0x80, 0x8F)
  else (0x80, 0xBF)

/-- How many of the next bytes, up to a number wanted, continue the character. -/
def goodTail (range : Nat × Nat) : Nat → List UInt8 → Nat
  | 0, _ => 0
  | _ + 1, [] => 0
  | wanted + 1, b :: rest =>
    if range.1 ≤ b.toNat && b.toNat ≤ range.2 then goodTail (0x80, 0xBF) wanted rest + 1 else 0

/-- The code point of a lead byte with all its continuation bytes. -/
def codePoint (lead : Nat) (tail : List UInt8) : Nat :=
  let bits := match tail.length with
    | 0 => lead
    | 1 => lead - 0xC0
    | 2 => lead - 0xE0
    | _ => lead - 0xF0
  tail.foldl (fun n b => n * 64 + (b.toNat - 0x80)) bits

def firstPiece (lead : UInt8) (rest : List UInt8) : Piece :=
  match tailLength lead.toNat with
  | none => ⟨[lead], .error .startByte⟩
  | some wanted =>
    let good := goodTail (secondByteRange lead.toNat) wanted rest
    let tail := rest.take good
    if good == wanted then ⟨lead :: tail, .ok (Char.ofNat (codePoint lead.toNat tail))⟩
    else if rest.length == good then ⟨lead :: tail, .error .endOfData⟩
    else ⟨lead :: tail, .error .continuation⟩

def pieces : List UInt8 → List Piece
  | [] => []
  | lead :: rest =>
    let piece := firstPiece lead rest
    piece :: pieces (rest.drop (piece.bytes.length - 1))
termination_by bytes => bytes.length
decreasing_by simp only [List.length_drop, List.length_cons]; omega

structure DecodeError where
  /-- How many bytes stand before the wrong ones. -/
  position : Nat
  bytes : List UInt8
  fault : Fault

def DecodeError.message (e : DecodeError) : String :=
  let place := match e.bytes with
    | [b] => "byte 0x" ++ String.ofList (hexDigits 2 b.toNat) ++ " in position " ++
        toString e.position
    | bytes => "bytes in position " ++ toString e.position ++ "-" ++
        toString (e.position + bytes.length - 1)
  "'utf-8' codec can't decode " ++ place ++ ": " ++ e.fault.reason

def decodePieces (position : Nat) : List Piece → Except DecodeError (List Char)
  | [] => .ok []
  | piece :: rest =>
    match piece.content with
    | .error fault => .error ⟨position, piece.bytes, fault⟩
    | .ok c => (decodePieces (position + piece.bytes.length) rest).map (c :: ·)

def decode (bytes : List UInt8) : Except DecodeError String :=
  (decodePieces 0 (pieces bytes)).map String.ofList

def Piece.replaced (piece : Piece) : Char :=
  match piece.content with
  | .ok c => c
  | .error _ => '\uFFFD'

def decodeReplacing (bytes : List UInt8) : String :=
  String.ofList ((pieces bytes).map Piece.replaced)

def encode (s : String) : List UInt8 := s.toList.flatMap String.utf8EncodeChar

end SceneCodegen.Text.Utf8
