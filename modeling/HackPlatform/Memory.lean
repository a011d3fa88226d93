/-!
# Memory

Data memory answers every address below its size and refuses the others; instruction memory is an
array of words that is only read. Besides the bus there is a view that reads zero outside, for
inspection and for presets.
-/

namespace HackPlatform

/-- The direction of a bus access. -/
inductive Access
  | read
  | write
  deriving DecidableEq, Repr

/-- The refusal of a bus access: its direction and the number of words there are. -/
structure BusFault where
  access : Access
  size : Nat
  deriving DecidableEq, Repr

/-- The message of a refused access. -/
def BusFault.message (f : BusFault) : String :=
  let verb := match f.access with
    | .read => "read"
    | .write => "write"
  s!"{verb} beyond {f.size} words of RAM"

/-- Data memory. -/
structure Ram where
  words : Array UInt16
  deriving DecidableEq

namespace Ram

/-- The number of words of the full data memory. -/
def fullSize : Nat := 32768

/-- Data memory of the given size, all zero. -/
def zeros (size : Nat) : Ram :=
  ⟨Array.replicate size 0⟩

/-- The number of cells. -/
def size (r : Ram) : Nat :=
  r.words.size

/-- The word at an address, zero outside memory. -/
def peek (r : Ram) (addr : UInt16) : UInt16 :=
  r.words.getD addr.toNat 0

/-- Memory with one cell replaced; unchanged when there is no such cell. -/
def poke (r : Ram) (addr value : UInt16) : Ram :=
  ⟨r.words.setIfInBounds addr.toNat value⟩

/-- Reads over the bus. -/
@[inline] def read (r : Ram) (addr : UInt16) : Except BusFault UInt16 :=
  if addr.toNat < r.size then .ok (r.peek addr) else .error ⟨.read, r.size⟩

/-- Writes over the bus. -/
@[inline] def write (r : Ram) (addr value : UInt16) : Except BusFault Ram :=
  if addr.toNat < r.size then .ok (r.poke addr value) else .error ⟨.write, r.size⟩

@[simp] theorem size_zeros (n : Nat) : (zeros n).size = n := by
  simp [zeros, size]

@[simp] theorem size_poke (r : Ram) (addr value : UInt16) : (r.poke addr value).size = r.size := by
  simp [poke, size]

@[simp] theorem peek_zeros (n : Nat) (addr : UInt16) : (zeros n).peek addr = 0 := by
  rw [peek, zeros, Array.getD_eq_getD_getElem?, Array.getElem?_replicate]
  split <;> rfl

/-- The cell that was written holds the word, if there is such a cell. -/
theorem peek_poke_self {r : Ram} {addr : UInt16} (value : UInt16) (h : addr.toNat < r.size) :
    (r.poke addr value).peek addr = value := by
  simp_all [peek, poke, size]

/-- Every other cell keeps its word. -/
theorem peek_poke_of_ne (r : Ram) {addr other : UInt16} (value : UInt16) (h : other ≠ addr) :
    (r.poke addr value).peek other = r.peek other := by
  have h : addr.toNat ≠ other.toNat := fun e => h (UInt16.toNat_inj.1 e).symm
  simp [peek, poke, Array.getElem?_setIfInBounds_ne h]

end Ram

/-- Instruction memory. -/
structure Rom where
  words : Array UInt16
  deriving DecidableEq

namespace Rom

/-- The number of words. -/
def size (r : Rom) : Nat :=
  r.words.size

/-- The word at an address, if there is one. -/
def fetch? (r : Rom) (pc : UInt16) : Option UInt16 :=
  r.words[pc.toNat]?

end Rom

end HackPlatform
