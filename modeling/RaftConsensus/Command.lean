import RaftConsensus.Library.BigEndian

/-!
# Commands and their byte form (`command.cpp`)

A command carries its key and value together with two 16-bit length fields.  The length
fields are data of their own: `Serialize` writes them next to the *whole* key and value,
and `Deserialize` trusts them.  The two agree exactly when the fields hold the real
lengths.

Reading past the end of a vector is undefined in the source; here it is `none`.
-/

namespace RaftConsensus

/-- `struct Command`. -/
structure Command where
  operation : UInt8
  keyLen : ℕ
  valueLen : ℕ
  key : Bytes
  value : Bytes
  deriving DecidableEq, Repr

/-- The default constructor `Command()`. -/
def Command.default : Command := ⟨0, 0, 0, [], []⟩

/-- `Serialize`: the operation, the two lengths (16 bits each), the key, the value. -/
def serialize (op : UInt8) (keyL valL : ℕ) (key value : Bytes) : Bytes :=
  op :: (bigEndian 2 keyL ++ (bigEndian 2 valL ++ (key ++ value)))

/-- `Deserialize`.  The vector must hold as many bytes as its length fields promise. -/
def deserialize (result : Bytes) : Option Command := do
  let operation ← result[0]?
  let keyLen1 ← readBigEndian result 1 2
  let valLen1 ← readBigEndian result 3 2
  let key ← slice result 5 (5 + keyLen1)
  let value ← slice result (5 + keyLen1) (5 + keyLen1 + valLen1)
  return ⟨operation, keyLen1, valLen1, key, value⟩

theorem length_serialize (op : UInt8) (keyL valL : ℕ) (key value : Bytes) :
    (serialize op keyL valL key value).length = 5 + key.length + value.length := by
  simp only [serialize, List.length_cons, List.length_append, length_bigEndian]
  omega

/-- **The length fields are those of the key and of the value.**  This bounds both by the
16 bits of the fields. -/
structure Command.WellFormed (c : Command) : Prop where
  keyLen : c.keyLen = c.key.length
  valueLen : c.valueLen = c.value.length
  key_lt : c.key.length < 65536
  value_lt : c.value.length < 65536

/-- The key and the value fit their length fields. -/
def Command.Fits (c : Command) : Prop := c.key.length < 65536 ∧ c.value.length < 65536

instance (c : Command) : Decidable c.Fits := inferInstanceAs (Decidable (_ ∧ _))

/-- A vector with the promised bytes is read completely. -/
theorem deserialize_serialize (op : UInt8) {keyL valL : ℕ} {key value : Bytes}
    (hk : keyL = key.length) (hv : valL = value.length) (hkl : key.length < 65536)
    (hvl : value.length < 65536) :
    deserialize (serialize op keyL valL key value) = some ⟨op, keyL, valL, key, value⟩ := by
  have h1 : readBigEndian (serialize op keyL valL key value) 1 2 = some keyL := by
    have := readBigEndian_append_right [op] (bigEndian 2 keyL)
      (bigEndian 2 valL ++ (key ++ value)) (i := 1) (w := 2) rfl (by simp)
    rw [ofBigEndian_bigEndian_of_lt (by omega)] at this
    exact this
  have h2 : readBigEndian (serialize op keyL valL key value) 3 2 = some valL := by
    have := readBigEndian_append_right (op :: bigEndian 2 keyL) (bigEndian 2 valL)
      (key ++ value) (i := 3) (w := 2) (by simp) (by simp)
    rw [ofBigEndian_bigEndian_of_lt (by omega)] at this
    exact this
  have h3 : slice (serialize op keyL valL key value) 5 (5 + keyL) = some key := by
    have := slice_append_right (op :: (bigEndian 2 keyL ++ bigEndian 2 valL)) key value
      (i := 5) (j := 5 + keyL) (by simp) (by simp [hk])
    rw [← this]
    simp [serialize, List.append_assoc]
  have h4 : slice (serialize op keyL valL key value) (5 + keyL) (5 + keyL + valL) =
      some value := by
    have := slice_append_right (op :: (bigEndian 2 keyL ++ (bigEndian 2 valL ++ key))) value []
      (i := 5 + keyL) (j := 5 + keyL + valL)
      (by simp [hk]; omega) (by simp [hk, hv]; omega)
    rw [← this]
    simp [serialize, List.append_assoc]
  unfold deserialize
  rw [h1]
  simp only [h2, Option.bind_eq_bind, Option.bind_some, h3, h4]
  rfl

/-- What is read back is well formed. -/
theorem wellFormed_of_deserialize {bs : Bytes} {c : Command} (h : deserialize bs = some c) :
    c.WellFormed := by
  unfold deserialize at h
  simp only [Option.bind_eq_bind, Option.bind_eq_some_iff] at h
  obtain ⟨op, -, kl, hkl, vl, hvl, key, hkey, value, hvalue, heq⟩ := h
  have hread : ∀ {pos n : ℕ}, readBigEndian bs pos 2 = some n → n < 65536 := by
    intro pos n hn
    obtain ⟨mid, hmid, rfl⟩ := Option.map_eq_some_iff.mp hn
    have hlen : mid.length ≤ 2 := by
      unfold slice at hmid
      split at hmid
      · rw [← Option.some.inj hmid, List.length_take]
        omega
      · exact absurd hmid (by simp)
    calc ofBigEndian mid < 256 ^ mid.length := ofBigEndian_lt mid
      _ ≤ 256 ^ 2 := Nat.pow_le_pow_right (by decide) hlen
      _ = 65536 := by decide
  have hslice : ∀ {i j : ℕ} {x : Bytes}, slice bs i j = some x → x.length = j - i := by
    intro i j x hx
    unfold slice at hx
    split at hx
    · rw [← Option.some.inj hx, List.length_take, List.length_drop]
      omega
    · exact absurd hx (by simp)
  have hk := hslice hkey
  have hv := hslice hvalue
  have h1 := hread hkl
  have h2 := hread hvl
  rw [← Option.some.inj heq]
  exact ⟨by show kl = key.length; omega, by show vl = value.length; omega,
    by show key.length < _; omega, by show value.length < _; omega⟩

/-- What is read is what `Serialize` writes. -/
theorem take_of_deserialize {bs : Bytes} {c : Command} (h : deserialize bs = some c) :
    bs.take (5 + c.keyLen + c.valueLen) =
      serialize c.operation c.keyLen c.valueLen c.key c.value := by
  unfold deserialize at h
  simp only [Option.bind_eq_bind, Option.bind_eq_some_iff] at h
  obtain ⟨op, hop, kl, hkl, vl, hvl, key, hkey, value, hvalue, heq⟩ := h
  obtain rfl := Option.some.inj heq
  have hone : bs.take 1 = [op] := by
    rcases bs with _ | ⟨b, bs⟩
    · exact absurd hop (by simp)
    · obtain rfl : b = op := Option.some.inj hop
      rw [List.take_succ_cons, List.take_zero]
  have h3 := take_of_readBigEndian hkl
  have h5 := take_of_readBigEndian hvl
  rw [take_of_slice hvalue, take_of_slice hkey, h5, h3, hone]
  simp only [serialize, List.append_assoc, List.cons_append, List.nil_append]

end RaftConsensus
