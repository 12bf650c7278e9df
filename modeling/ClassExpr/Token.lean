import ClassExpr.Text.Utf8

set_option autoImplicit false

/-! A token is a stretch of a text: the byte offset where it starts and the characters it covers.
Its end follows from these, so a token is never reversed. Cuts never split a character. -/

namespace ClassExpr

open Text

structure Token where
  start : Nat
  text : String
deriving Repr, DecidableEq

namespace Token

def size (token : Token) : Nat :=
  token.text.utf8ByteSize

def stop (token : Token) : Nat :=
  token.start + token.size

def ofChars (start : Nat) (cs : List Char) : Token :=
  ⟨start, String.ofList cs⟩

@[simp] theorem start_ofChars (start : Nat) (cs : List Char) : (ofChars start cs).start = start :=
  rfl

@[simp] theorem stop_ofChars (start : Nat) (cs : List Char) :
    (ofChars start cs).stop = start + byteLength cs :=
  congrArg (start + ·) (utf8ByteSize_ofList cs)

/-- The token between two offsets of a source, if both are boundaries and in order. -/
def ofSource? (source : String) (start stop : Nat) : Option Token :=
  (slice? source.toList start stop).map (ofChars start)

def isEmpty (token : Token) : Bool :=
  token.size == 0

def contains (token : Token) (position : Nat) : Bool :=
  token.start ≤ position && position < token.stop

/-- A cursor at `position` is inside the token or right after its last character. -/
def touches (token : Token) (position : Nat) : Bool :=
  token.start < position && position ≤ token.stop

/-- The part between two offsets of the source. Offsets outside the token are moved to its ends,
offsets inside a character to the start of that character. -/
def slice (token : Token) (start stop : Nat) : Token :=
  let cs := token.text.toList
  let first := max token.start (min start token.stop) - token.start
  let last := max (first + token.start) (min stop token.stop) - token.start
  ofChars (token.start + floorBoundary cs first) (between first last cs)

def upTo (token : Token) (position : Nat) : Token :=
  token.slice token.start position

end Token

end ClassExpr
