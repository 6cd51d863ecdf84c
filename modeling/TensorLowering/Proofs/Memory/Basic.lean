import TensorLowering.Layout.Basic

/-!
# Arrays in bytes

The memory of a lowered graph is two buffers of bytes, one for each space. An element takes four
bytes, in an encoding that can be read back (`Encoding`). Reading an array where it was written
gives it back (`Memory.read_write_self`), and reading one that lies in another space or apart from
what was written is not affected (`Memory.read_write_apart`).
-/

namespace TensorLowering

/-- An element as four bytes that can be read back. -/
structure Encoding (α : Type) where
  encode : α → Fin 4 → UInt8
  decode : (Fin 4 → UInt8) → α
  decode_encode : ∀ a, decode (encode a) = a

/-- The byte at every address of every space. -/
abbrev Memory := Space → Int → UInt8

namespace Memory

variable {α : Type} {E : Encoding α} {m : Memory} {space space' : Space} {start start' : Int}
  {data : Array α}

/-- The array of `count` elements that begins at an address. -/
def read (E : Encoding α) (m : Memory) (space : Space) (start : Int) (count : Nat) : Array α :=
  Array.ofFn fun i : Fin count => E.decode fun k => m space (start + 4 * i.val + k.val)

/-- The memory in which an array begins at an address. -/
def write (E : Encoding α) (m : Memory) (space : Space) (start : Int) (data : Array α) : Memory :=
  fun other address =>
    if other = space ∧ start ≤ address then
      match data[((address - start) / 4).toNat]? with
      | some a => E.encode a (Fin.ofNat 4 ((address - start) % 4).toNat)
      | none => m other address
    else m other address

@[simp] theorem size_read {count : Nat} : (read E m space start count).size = count := by
  simp [read]

/-- The bytes of an element that was written. -/
theorem write_element (E : Encoding α) (m : Memory) (space : Space) (start : Int) {i : Nat} {a : α}
    (ha : data[i]? = some a) (k : Fin 4) :
    write E m space start data space (start + 4 * i + k.val) = E.encode a k := by
  have hk := k.isLt
  have hindex : ((start + 4 * i + k.val - start) / 4).toNat = i := by omega
  have hbyte : ((start + 4 * i + k.val - start) % 4).toNat = k.val := by omega
  have hle : start ≤ start + 4 * i + k.val := by omega
  have hfin : Fin.ofNat 4 k.val = k := Fin.ext (Nat.mod_eq_of_lt hk)
  simp only [write, hle, and_self, if_true, hindex, hbyte, ha, hfin]

/-- A byte outside of what was written. -/
theorem write_outside {address : Int}
    (h : space' ≠ space ∨ address < start ∨ start + 4 * data.size ≤ address) :
    write E m space start data space' address = m space' address := by
  unfold write
  split
  · next hin =>
    have hpast : start + 4 * data.size ≤ address := by
      rcases h with h | h | h
      · exact absurd hin.1 h
      · omega
      · exact h
    have hnone : data[((address - start) / 4).toNat]? = none := by
      rw [Array.getElem?_eq_none_iff]
      omega
    rw [hnone]
  · rfl

/-- An array is read back where it was written. -/
theorem read_write_self (E : Encoding α) (m : Memory) (space : Space) (start : Int)
    (data : Array α) : read E (write E m space start data) space start data.size = data := by
  refine Array.ext size_read fun i hi hi' => ?_
  have helement := write_element E m space start (Array.getElem?_eq_getElem hi')
  simp only [read, Array.getElem_ofFn, helement]
  exact E.decode_encode _

/-- An array that lies elsewhere is not affected by what is written. -/
theorem read_write_apart {count : Nat}
    (h : space' ≠ space ∨ start' + 4 * count ≤ start ∨ start + 4 * data.size ≤ start') :
    read E (write E m space start data) space' start' count = read E m space' start' count := by
  unfold read
  refine congrArg Array.ofFn (funext fun i => congrArg E.decode (funext fun k => ?_))
  have hi := i.isLt
  have hk := k.isLt
  refine write_outside ?_
  rcases h with h | h | h
  · exact .inl h
  · exact .inr (.inl (by omega))
  · exact .inr (.inr (by omega))

end Memory

end TensorLowering
