import Mathlib.Logic.Equiv.Defs
import Mathlib.Tactic.Ring

/-!
# Records in memory

How a value lies in memory: its size, its alignment, the bytes that hold it (the others are
padding), and how it is read and written. A `Layout` carries the laws of the two: what is written
is read back, a write of what is there changes nothing, the bytes of a value do not depend on what
was there before, and padding is left as it was. `Layout.read_eq_read_iff` follows: two memories
hold the same value exactly when they agree on its bytes.

A record is laid out by the C rule, field by field (`Layout.field`): each field at the next
multiple of its alignment, the whole padded to a multiple of the largest (`Layout.close`). Its laws
come from those of its fields.
-/

set_option autoImplicit false

namespace Base

/-- The bytes from the start of an object on. -/
abbrev Memory : Type := Nat → UInt8

namespace Memory

/-- The bytes `off` further on. -/
def shift (m : Memory) (off : Nat) : Memory := fun i => m (off + i)

/-- The bytes of `m` before `off`, and those of `m'` from there on. -/
def splice (m : Memory) (off : Nat) (m' : Memory) : Memory :=
  fun i => if i < off then m i else m' (i - off)

/-- The memory that holds a string of bytes, and zeros behind it. -/
def ofList (bs : List UInt8) : Memory := fun i => bs.getD i 0

/-- The first `n` bytes. -/
def first (m : Memory) (n : Nat) : List UInt8 := (List.range n).map m

@[simp] theorem shift_splice (m m' : Memory) (off : Nat) : (m.splice off m').shift off = m' := by
  funext i
  simp [shift, splice]

@[simp] theorem length_first (m : Memory) (n : Nat) : (m.first n).length = n := by simp [first]

theorem ofList_of_lt {bs : List UInt8} {i : Nat} (h : i < bs.length) : ofList bs i = bs[i] := by
  simp [ofList, h]

/-- The first bytes of a memory, followed by anything, hold what the memory holds. -/
theorem ofList_first_append (m : Memory) (rest : List UInt8) {n i : Nat} (h : i < n) :
    ofList (m.first n ++ rest) i = m i := by
  rw [ofList_of_lt (by simp; omega), List.getElem_append_left (by simpa using h)]
  simp [first]

end Memory

/-- `n` rounded up to a multiple of `a`. -/
def roundUp (n a : Nat) : Nat := n + (a - n % a) % a

theorem le_roundUp (n a : Nat) : n ≤ roundUp n a := Nat.le_add_right _ _

/-- How a type's values lie in memory. -/
structure Layout (α : Type) where
  size : Nat
  align : Nat
  /-- the bytes that hold the value; the others are padding -/
  owns : Nat → Bool
  read : Memory → α
  write : α → Memory → Memory
  lt_size : ∀ {i : Nat}, owns i = true → i < size
  read_write : ∀ (a : α) (m : Memory), read (write a m) = a
  write_read : ∀ m : Memory, write (read m) m = m
  write_owned : ∀ (a : α) (m m' : Memory) {i : Nat}, owns i = true → write a m i = write a m' i
  write_padding : ∀ (a : α) (m : Memory) {i : Nat}, owns i = false → write a m i = m i

namespace Layout

variable {α β : Type}

/-- Two memories hold the same value exactly when they agree on its bytes. -/
theorem read_eq_read_iff (c : Layout α) (m m' : Memory) :
    c.read m = c.read m' ↔ ∀ i, c.owns i = true → m i = m' i := by
  constructor
  · intro h i hi
    calc m i = c.write (c.read m) m i := by rw [c.write_read]
      _ = c.write (c.read m') m' i := by rw [h, c.write_owned _ m m' hi]
      _ = m' i := by rw [c.write_read]
  · intro h
    have hsame : c.write (c.read m) m' = m' := by
      funext i
      cases hi : c.owns i with
      | true => rw [c.write_owned _ m' m hi, c.write_read, h i hi]
      | false => exact c.write_padding _ _ hi
    rw [← hsame, c.read_write]

/-- A memory holds `a` exactly when it has the bytes that writing `a` leaves. -/
theorem read_eq_iff (c : Layout α) (a : α) (m m' : Memory) :
    c.read m = a ↔ ∀ i, c.owns i = true → m i = c.write a m' i := by
  rw [← c.read_eq_read_iff, c.read_write]

/-! ## Building layouts -/

/-- Nothing. -/
def unit : Layout Unit where
  size := 0
  align := 1
  owns _ := false
  read _ := ()
  write _ m := m
  lt_size h := by cases h
  read_write _ _ := rfl
  write_read _ := rfl
  write_owned _ _ _ _ h := by cases h
  write_padding _ _ _ _ := rfl

/-- The same bytes, read as another type. -/
def map (c : Layout α) (e : α ≃ β) : Layout β where
  size := c.size
  align := c.align
  owns := c.owns
  read m := e (c.read m)
  write b m := c.write (e.symm b) m
  lt_size := c.lt_size
  read_write b m := by rw [c.read_write, e.apply_symm_apply]
  write_read m := by rw [e.symm_apply_apply, c.write_read]
  write_owned b m m' _ h := c.write_owned _ m m' h
  write_padding b m _ h := c.write_padding _ m h

/-- Where a record that ends at `c.size` has its next field. -/
def next (c : Layout α) (d : Layout β) : Nat := roundUp c.size d.align

/-- A record with one more field behind it. -/
def field (c : Layout α) (d : Layout β) : Layout (α × β) where
  size := c.next d + d.size
  align := max c.align d.align
  owns i := c.owns i || (decide (c.next d ≤ i) && d.owns (i - c.next d))
  read m := (c.read m, d.read (m.shift (c.next d)))
  write p m := (c.write p.1 m).splice (c.next d) (d.write p.2 (m.shift (c.next d)))
  lt_size {i} h := by
    have hle : c.size ≤ c.next d := le_roundUp _ _
    rcases Bool.or_eq_true_iff.mp h with h | h
    · have := c.lt_size h
      omega
    · obtain ⟨hi, h⟩ := Bool.and_eq_true_iff.mp h
      have := d.lt_size h
      have := of_decide_eq_true hi
      omega
  read_write p m := by
    have hle : c.size ≤ c.next d := le_roundUp _ _
    refine Prod.ext ?_ ?_
    · refine (c.read_eq_iff p.1 _ m).mpr fun i hi => ?_
      exact if_pos (Nat.lt_of_lt_of_le (c.lt_size hi) hle)
    · rw [Memory.shift_splice, d.read_write]
  write_read m := by
    funext i
    rw [c.write_read, d.write_read]
    unfold Memory.splice Memory.shift
    split
    · rfl
    · exact congrArg m (by omega)
  write_owned p m m' i h := by
    have hle : c.size ≤ c.next d := le_roundUp _ _
    unfold Memory.splice
    rcases Bool.or_eq_true_iff.mp h with h | h
    · have := c.lt_size h
      rw [if_pos (by omega), if_pos (by omega)]
      exact c.write_owned _ m m' h
    · obtain ⟨hi, h⟩ := Bool.and_eq_true_iff.mp h
      have := of_decide_eq_true hi
      rw [if_neg (by omega), if_neg (by omega)]
      exact d.write_owned _ _ _ h
  write_padding p m i h := by
    obtain ⟨hc, hd⟩ := Bool.or_eq_false_iff.mp h
    unfold Memory.splice
    split
    · exact c.write_padding _ m hc
    · next hi =>
      have hown : d.owns (i - c.next d) = false := by simpa [Nat.not_lt.mp hi] using hd
      rw [d.write_padding _ _ hown]
      exact congrArg m (by omega)

/-- A record, padded so that records of its type can follow one another. -/
def close (c : Layout α) : Layout α where
  size := roundUp c.size c.align
  align := c.align
  owns := c.owns
  read := c.read
  write := c.write
  lt_size h := Nat.lt_of_lt_of_le (c.lt_size h) (le_roundUp _ _)
  read_write := c.read_write
  write_read := c.write_read
  write_owned := c.write_owned
  write_padding := c.write_padding

/-! ## Scalars and arrays -/

/-- The number whose little-endian digits are the first `w` bytes. -/
def leNat : Nat → Memory → Nat
  | 0, _ => 0
  | w + 1, m => (m 0).toNat + 256 * leNat w (m.shift 1)

/-- Byte `i` of the little-endian digits of `n`. -/
def leByte (n i : Nat) : UInt8 := UInt8.ofNat (n / 256 ^ i % 256)

theorem leNat_lt (w : Nat) (m : Memory) : leNat w m < 256 ^ w := by
  induction w generalizing m with
  | zero => simp [leNat]
  | succ w ih =>
    have h := ih (m.shift 1)
    have hb : (m 0).toNat < 256 := (m 0).toNat_lt
    rw [leNat, pow_succ]
    omega

theorem leNat_congr {w : Nat} {m m' : Memory} (h : ∀ i < w, m i = m' i) :
    leNat w m = leNat w m' := by
  induction w generalizing m m' with
  | zero => rfl
  | succ w ih =>
    rw [leNat, leNat, h 0 (Nat.succ_pos w)]
    rw [ih fun i hi => ?_]
    exact h (1 + i) (by omega)

theorem leByte_succ (n i : Nat) : leByte n (i + 1) = leByte (n / 256) i := by
  rw [leByte, leByte, pow_succ', Nat.div_div_eq_div_mul]

theorem leNat_leByte {w n : Nat} (h : n < 256 ^ w) : leNat w (leByte n) = n := by
  induction w generalizing n with
  | zero =>
    rw [pow_zero] at h
    rw [leNat]
    omega
  | succ w ih =>
    have hdiv : n / 256 < 256 ^ w := by
      rw [pow_succ] at h
      omega
    have hrest : leNat w (Memory.shift (leByte n) 1) = n / 256 := by
      refine (leNat_congr fun i _ => ?_).trans (ih hdiv)
      exact (congrArg (leByte n) (Nat.add_comm 1 i)).trans (leByte_succ n i)
    have hlow : (leByte n 0).toNat = n % 256 := by simp [leByte]
    rw [leNat, hrest, hlow, Nat.mod_add_div]

theorem leByte_leNat {w i : Nat} (m : Memory) (h : i < w) : leByte (leNat w m) i = m i := by
  induction w generalizing m i with
  | zero => omega
  | succ w ih =>
    have hb : (m 0).toNat < 256 := (m 0).toNat_lt
    cases i with
    | zero =>
      apply UInt8.toNat_inj.mp
      simp only [leByte, leNat, pow_zero, Nat.div_one, UInt8.toNat_ofNat']
      omega
    | succ i =>
      have hdiv : ((m 0).toNat + 256 * leNat w (m.shift 1)) / 256 = leNat w (m.shift 1) := by omega
      rw [leNat, leByte_succ, hdiv, ih _ (by omega), Memory.shift, Nat.add_comm]

/-- A scalar of `w` bytes, little-endian, aligned to its size; `e` numbers its values. -/
def scalar (w : Nat) (e : α ≃ Fin (256 ^ w)) : Layout α where
  size := w
  align := w
  owns i := decide (i < w)
  read m := e.symm ⟨leNat w m, leNat_lt w m⟩
  write a m i := if i < w then leByte (e a) i else m i
  lt_size h := of_decide_eq_true h
  read_write a m := by
    have hread : leNat w (fun i => if i < w then leByte (e a) i else m i) = e a := by
      refine (leNat_congr fun i hi => ?_).trans (leNat_leByte (e a).isLt)
      rw [if_pos hi]
    simp only [hread, Fin.eta, Equiv.symm_apply_apply]
  write_read m := by
    funext i
    split
    · next hi => rw [e.apply_symm_apply, leByte_leNat m hi]
    · rfl
  write_owned a m m' i h := by
    have hi := of_decide_eq_true h
    rw [if_pos hi, if_pos hi]
  write_padding a m i h := if_neg (of_decide_eq_false h)

/-- An array of `n` bytes. -/
def bytes (n : Nat) : Layout (Vector UInt8 n) where
  size := n
  align := 1
  owns i := decide (i < n)
  read m := Vector.ofFn fun i => m i
  write v m i := if h : i < n then v[i] else m i
  lt_size h := of_decide_eq_true h
  read_write v m := by
    ext i hi
    simp
  write_read m := by
    funext i
    split <;> simp
  write_owned v m m' i h := by
    have hi := of_decide_eq_true h
    rw [dif_pos hi, dif_pos hi]
  write_padding v m i h := dif_neg (of_decide_eq_false h)

def u32 : Layout UInt32 :=
  scalar 4 ⟨fun a => ⟨a.toNat, a.toNat_lt⟩, fun n => UInt32.ofNat n.val, fun _ => by simp,
    fun _ => by simp⟩

def u64 : Layout UInt64 :=
  scalar 8 ⟨fun a => ⟨a.toNat, a.toNat_lt⟩, fun n => UInt64.ofNat n.val, fun _ => by simp,
    fun _ => by simp⟩

def i64 : Layout Int64 :=
  u64.map ⟨UInt64.toInt64, Int64.toUInt64, fun _ => by simp, fun _ => by simp⟩

/-! ## Strings of bytes -/

/-- The bytes of a value, its padding taken from `m`. -/
def toBytes (c : Layout α) (a : α) (m : Memory) : List UInt8 := (c.write a m).first c.size

/-- The value at the start of a string of bytes, if the string is long enough. -/
def ofBytes (c : Layout α) (bs : List UInt8) : Option α :=
  if c.size ≤ bs.length then some (c.read (.ofList bs)) else none

@[simp] theorem length_toBytes (c : Layout α) (a : α) (m : Memory) :
    (c.toBytes a m).length = c.size := Memory.length_first _ _

/-- A string of bytes is read as `a` exactly when it is long enough and has the bytes of `a`. -/
theorem ofBytes_eq_some_iff (c : Layout α) (bs : List UInt8) (a : α) (m : Memory) :
    c.ofBytes bs = some a ↔
      c.size ≤ bs.length ∧ ∀ i, c.owns i = true → Memory.ofList bs i = c.write a m i := by
  unfold ofBytes
  split
  · next h => rw [Option.some.injEq, c.read_eq_iff a _ m, and_iff_right h]
  · next h => simp [h]

/-- The bytes of a value are read back, whatever its padding holds and whatever follows. -/
theorem ofBytes_toBytes_append (c : Layout α) (a : α) (m : Memory) (rest : List UInt8) :
    c.ofBytes (c.toBytes a m ++ rest) = some a := by
  refine (c.ofBytes_eq_some_iff _ a m).mpr ⟨by simp, fun i hi => ?_⟩
  exact Memory.ofList_first_append _ rest (c.lt_size hi)

/-- No byte is padding. -/
def Packed (c : Layout α) : Prop := ∀ i < c.size, c.owns i = true

/-- Without padding the bytes of a value are its own: a string is read as `a` exactly when it
starts with the bytes of `a`. -/
theorem Packed.ofBytes_eq_some_iff {c : Layout α} (h : c.Packed) (bs : List UInt8) (a : α)
    (m : Memory) : c.ofBytes bs = some a ↔ c.toBytes a m <+: bs := by
  constructor
  · intro hread
    obtain ⟨hlen, hbytes⟩ := (c.ofBytes_eq_some_iff bs a m).mp hread
    have htake : c.toBytes a m = bs.take c.size := by
      refine List.ext_getElem (by simp [hlen]) fun i hi _ => ?_
      have hi : i < c.size := by simpa using hi
      have hbyte := hbytes i (h i hi)
      rw [Memory.ofList_of_lt (by omega)] at hbyte
      simp [toBytes, Memory.first, hbyte]
    exact htake ▸ List.take_prefix _ _
  · rintro ⟨rest, rfl⟩
    exact c.ofBytes_toBytes_append a m rest

end Layout

end Base
