/-!
UTF-8, read one byte at a time. A strict reading names the first byte that cannot belong to the
text and how many bytes were spoiled; a lenient reading puts U+FFFD in place of each spoiled run.
-/
namespace ImportCycles.Text.Utf8

/-- Where the reader stands between two bytes. -/
inductive State where
  /-- Between characters. -/
  | start
  /-- Inside a character: bytes read so far, continuation bytes owed, the range allowed for the
  next of them, and the value of the bits so far. -/
  | inside (read owed : Nat) (low high : UInt8) (bits : Nat)
deriving DecidableEq, Repr

/-- What one byte does to the reader. -/
inductive Outcome where
  | more (state : State)
  | char (c : Char)
  | refused
deriving Repr

/-- The first byte of a character: how many bytes it owes and what the next one may be. -/
def lead (b : UInt8) : Outcome :=
  if b < 0x80 then .char (Char.ofNat b.toNat)
  else if b < 0xC2 then .refused
  else if b < 0xE0 then .more (.inside 1 1 0x80 0xBF (b.toNat - 0xC0))
  else if b = 0xE0 then .more (.inside 1 2 0xA0 0xBF 0)
  else if b = 0xED then .more (.inside 1 2 0x80 0x9F 0x0D)
  else if b < 0xF0 then .more (.inside 1 2 0x80 0xBF (b.toNat - 0xE0))
  else if b = 0xF0 then .more (.inside 1 3 0x90 0xBF 0)
  else if b < 0xF4 then .more (.inside 1 3 0x80 0xBF (b.toNat - 0xF0))
  else if b = 0xF4 then .more (.inside 1 3 0x80 0x8F 0x04)
  else .refused

def State.feed : State → UInt8 → Outcome
  | .start, b => lead b
  | .inside read owed low high bits, b =>
    if low ≤ b ∧ b ≤ high then
      let bits := bits * 64 + (b.toNat - 0x80)
      if owed = 1 then .char (Char.ofNat bits)
      else .more (.inside (read + 1) (owed - 1) 0x80 0xBF bits)
    else .refused

/-- Bytes read since the last character ended. -/
def State.read : State → Nat
  | .start => 0
  | .inside read .. => read

/-- Why bytes are not UTF-8. -/
inductive Fault where
  /-- `length` bytes from `index` on begin no character, whatever follows. -/
  | invalid (length index : Nat)
  /-- The bytes end inside the character that begins at `index`. -/
  | incomplete (index : Nat)
deriving DecidableEq, Repr

def Fault.message : Fault → String
  | .invalid length index => s!"invalid utf-8 sequence of {length} bytes from index {index}"
  | .incomplete index => s!"incomplete utf-8 byte sequence from index {index}"

/-- Strict reading from a state; `index` is where the character under way begins, and `done`
holds the characters read, the last one first. -/
def readFrom (state : State) (index : Nat) (done : List Char) :
    List UInt8 → Except Fault (List Char)
  | [] => if state = .start then .ok done.reverse else .error (.incomplete index)
  | b :: rest =>
    match state.feed b with
    | .more next => readFrom next index done rest
    | .char c => readFrom .start (index + state.read + 1) (c :: done) rest
    | .refused => .error (.invalid (max state.read 1) index)

/-- The characters that the bytes spell. -/
def read (bytes : List UInt8) : Except Fault (List Char) :=
  readFrom .start 0 [] bytes

/-- The characters, if the bytes are UTF-8. -/
def read? (bytes : List UInt8) : Option (List Char) :=
  (read bytes).toOption

def replacement : Char := '\uFFFD'

/-- Lenient reading from a state, with the characters read so far, the last one first. -/
def lenientFrom (state : State) (done : List Char) : List UInt8 → List Char
  | [] => (if state = .start then done else replacement :: done).reverse
  | b :: rest =>
    match state.feed b with
    | .more next => lenientFrom next done rest
    | .char c => lenientFrom .start (c :: done) rest
    | .refused =>
      if state = .start then lenientFrom .start (replacement :: done) rest
      else
        match lead b with
        | .more next => lenientFrom next (replacement :: done) rest
        | .char c => lenientFrom .start (c :: replacement :: done) rest
        | .refused => lenientFrom .start (replacement :: replacement :: done) rest

/-- The characters, with U+FFFD for each run of bytes that spells none. -/
def lenient (bytes : List UInt8) : List Char :=
  lenientFrom .start [] bytes

/-- The bytes that spell the characters. -/
def encode (cs : List Char) : List UInt8 :=
  cs.flatMap String.utf8EncodeChar

/-- The number of bytes that spell the characters. -/
def size : List Char → Nat
  | [] => 0
  | c :: cs => c.utf8Size + size cs

end ImportCycles.Text.Utf8
