import RaftConsensus.Decoder
import RaftConsensus.Library.ShiftRegister

/-!
# The checksum catches short bursts

`computeCRC32` is a shift register fed with bytes, and the table of `init_crc32_table` is the
usual way to do eight shifts at once (`crc32Byte_eq`).  The register has 32 bits, so four
bytes fit into it, and a change of up to four consecutive bytes under the checksum changes the
checksum (`computeCRC32_burst`).

In a log file the four length bytes of an entry are apart: they say where its checksum stands,
and a change there makes the decoder compare other bytes.  A burst that leaves them alone, and
does not straddle the end of the value, makes the decoder stop right before the entry
(`crc_catches_bursts`).
-/

namespace RaftConsensus

open ShiftRegister

/-! ## `computeCRC32` as a shift register -/

/-- The polynomial of `init_crc32_table`. -/
def crc32Poly : BitVec 32 := 0xEDB88320#32

theorem crc32TableStep_eq (crc : BitVec 32) : crc32TableStep crc = shift crc32Poly crc := by
  have hlow : crc &&& 1#32 ≠ 0#32 ↔ crc.getLsbD 0 = true := by
    rw [BitVec.and_one_eq_setWidth_ofBool_getLsbD]
    cases crc.getLsbD 0 <;> decide
  unfold crc32TableStep shift crc32Poly
  simp only [hlow]

theorem crc32Table_eq (i : BitVec 32) : crc32Table i = shifts crc32Poly 8 i := by
  have hstep : crc32TableStep = shift crc32Poly := funext crc32TableStep_eq
  rw [crc32Table, hstep, shifts]

/-- A byte as a symbol of the register. -/
def symbol (b : UInt8) : BitVec 32 := BitVec.ofNat 32 b.toNat

theorem symbol_toNat (b : UInt8) : (symbol b).toNat = b.toNat := by
  have hb : b.toNat < 256 := b.toNat_lt
  rw [symbol, BitVec.toNat_ofNat, Nat.mod_eq_of_lt (by omega)]

theorem symbol_lt (b : UInt8) : (symbol b).toNat < 2 ^ 8 := by
  rw [symbol_toNat]
  exact b.toNat_lt

theorem symbol_injective : Function.Injective symbol := by
  intro b c h
  rw [← UInt8.toNat_inj, ← symbol_toNat, ← symbol_toNat, h]

/-- The loop body of `computeCRC32` adds the byte and shifts eight times. -/
theorem crc32Byte_eq (crc : BitVec 32) (b : UInt8) :
    crc32Byte crc b = shifts crc32Poly 8 (crc ^^^ symbol b) := by
  have hgone : symbol b >>> 8 = 0#32 := by
    apply BitVec.eq_of_toNat_eq
    rw [BitVec.toNat_ushiftRight, Nat.shiftRight_eq_div_pow, Nat.div_eq_of_lt (symbol_lt b)]
    rfl
  rw [shifts_eq (by decide), BitVec.ushiftRight_xor_distrib, hgone, BitVec.xor_zero, crc32Byte,
    crc32Table_eq]
  rfl

theorem computeCRC32_eq (data : Bytes) :
    computeCRC32 data =
      feed crc32Poly 8 0xFFFFFFFF#32 (data.map symbol) ^^^ 0xFFFFFFFF#32 := by
  have hstep : crc32Byte = fun crc b => shifts crc32Poly 8 (crc ^^^ symbol b) :=
    funext fun crc => funext fun b => crc32Byte_eq crc b
  rw [computeCRC32, feed, List.foldl_map, hstep]

/-- **Four bytes fit into the register**: a change of up to four consecutive bytes changes the
checksum. -/
theorem computeCRC32_burst {a m m' b : Bytes} (hlen : m.length = m'.length) (hle : m.length ≤ 4)
    (h : computeCRC32 (a ++ (m ++ b)) = computeCRC32 (a ++ (m' ++ b))) : m = m' := by
  have hlt : ∀ bs : Bytes, ∀ x ∈ bs.map symbol, x.toNat < 2 ^ 8 := by
    intro bs x hx
    obtain ⟨c, -, rfl⟩ := List.mem_map.mp hx
    exact symbol_lt c
  rw [computeCRC32_eq, computeCRC32_eq, BitVec.xor_left_inj] at h
  simp only [List.map_append] at h
  have hmap := feed_burst (by decide) (hlt m) (hlt m') (by simp [hlen])
    (by rw [List.length_map]; omega) h
  exact (List.map_injective_iff.mpr symbol_injective) hmap

/-! ## Overwritten bytes -/

/-- The string with the bytes from a position on overwritten. -/
def overwrite (data : Bytes) (pos : ℕ) (bytes : Bytes) : Bytes :=
  data.take pos ++ (bytes ++ data.drop (pos + bytes.length))

theorem length_overwrite {data bytes : Bytes} {pos : ℕ} (h : pos + bytes.length ≤ data.length) :
    (overwrite data pos bytes).length = data.length := by
  simp only [overwrite, List.length_append, List.length_take, List.length_drop]
  omega

theorem overwrite_append_right (a data : Bytes) (pos : ℕ) (bytes : Bytes) :
    overwrite (a ++ data) (a.length + pos) bytes = a ++ overwrite data pos bytes := by
  rw [overwrite, overwrite, List.take_length_add_append, Nat.add_assoc, List.drop_length_add_append,
    List.append_assoc]

theorem overwrite_append_left {data bytes : Bytes} {pos : ℕ} (h : pos + bytes.length ≤ data.length)
    (b : Bytes) : overwrite (data ++ b) pos bytes = overwrite data pos bytes ++ b := by
  rw [overwrite, overwrite, List.take_append_of_le_length (by omega),
    List.drop_append_of_le_length h]
  simp only [List.append_assoc]

/-- A number beside the overwritten bytes is read as before. -/
theorem readBigEndian_overwrite {data bytes : Bytes} {pos : ℕ}
    (h : pos + bytes.length ≤ data.length) {i w : ℕ} (hi : i + w ≤ data.length)
    (hbeside : i + w ≤ pos ∨ pos + bytes.length ≤ i) :
    readBigEndian (overwrite data pos bytes) i w = readBigEndian data i w := by
  have hlen := length_overwrite h
  rw [readBigEndian_eq_some _ (by omega), readBigEndian_eq_some _ hi]
  have hsame : ((overwrite data pos bytes).drop i).take w = (data.drop i).take w := by
    rcases hbeside with hbefore | hbehind
    · have hsplit : data = data.take pos ++ data.drop pos := (List.take_append_drop pos data).symm
      have htake : i + w ≤ (data.take pos).length := by
        rw [List.length_take]
        omega
      conv_rhs => rw [hsplit]
      rw [overwrite, List.drop_append_of_le_length (by omega),
        List.drop_append_of_le_length (by omega),
        List.take_append_of_le_length (by rw [List.length_drop]; omega),
        List.take_append_of_le_length (by rw [List.length_drop]; omega)]
    · have hfront : (data.take pos ++ bytes).length = pos + bytes.length := by
        rw [List.length_append, List.length_take]
        omega
      obtain ⟨k, rfl⟩ := Nat.exists_eq_add_of_le hbehind
      rw [overwrite, ← List.append_assoc, ← hfront, List.drop_length_add_append, List.drop_drop]
  rw [hsame]

/-! ## The log decoder on a burst -/

/-- `n` bytes from a position of an entry lie in its term, index and operation, in its key and value, or
in its checksum. -/
def LogEntry.Covers (e : LogEntry) (pos n : ℕ) : Prop :=
  pos + n ≤ 17 ∨
    (21 ≤ pos ∧ pos + n ≤ 21 + e.command.key.length + e.command.value.length) ∨
    (21 + e.command.key.length + e.command.value.length ≤ pos ∧
      pos + n ≤ 25 + e.command.key.length + e.command.value.length)

/-- An entry that an overwritten one could be taken for is as long as that one. -/
theorem eq_overwrite_of_prefix {e e' : LogEntry} (he : e.WellFormed) (he' : e'.WellFormed)
    {pos : ℕ} {bytes post : Bytes} (hcovers : e.Covers pos bytes.length)
    (h : serializeLogEntry e' <+: overwrite (serializeLogEntry e) pos bytes ++ post) :
    serializeLogEntry e' = overwrite (serializeLogEntry e) pos bytes := by
  have hlen := length_serializeLogEntry e
  have hinside : pos + bytes.length ≤ (serializeLogEntry e).length := by
    unfold LogEntry.Covers at hcovers
    omega
  obtain ⟨post', hpost'⟩ := h
  -- the length fields are beside the burst
  have hfield : ∀ i w, 17 ≤ i → i + w ≤ 21 →
      readBigEndian (serializeLogEntry e' ++ post') i w =
        readBigEndian (serializeLogEntry e ++ post) i w := by
    intro i w hi hw
    rw [hpost', ← overwrite_append_left hinside]
    unfold LogEntry.Covers at hcovers
    exact readBigEndian_overwrite (by rw [List.length_append]; omega)
      (by rw [List.length_append]; omega) (by omega)
  obtain ⟨-, -, hkey, hval⟩ := read_header [] post e
  obtain ⟨-, -, hkey', hval'⟩ := read_header [] post' e'
  simp only [List.nil_append, List.length_nil, Nat.zero_add] at hkey hval hkey' hval'
  rw [hfield _ _ (by decide) (by decide), hkey, Option.some.injEq] at hkey'
  rw [hfield _ _ (by decide) (by decide), hval, Option.some.injEq] at hval'
  have hlen' := length_serializeLogEntry e'
  have hsame : (serializeLogEntry e').length =
      (overwrite (serializeLogEntry e) pos bytes).length := by
    obtain ⟨hk, hv, hklt, hvlt⟩ := he.command
    obtain ⟨hk', hv', hklt', hvlt'⟩ := he'.command
    rw [length_overwrite hinside]
    omega
  exact (List.append_inj hpost' hsame).1

/-- **A burst makes an entry unreadable**, or changes nothing. -/
theorem not_prefix_of_overwrite {e : LogEntry} (he : e.WellFormed) {pos : ℕ} {bytes post : Bytes}
    (hle : bytes.length ≤ 4) (hcovers : e.Covers pos bytes.length)
    (hne : overwrite (serializeLogEntry e) pos bytes ≠ serializeLogEntry e) (e' : LogEntry)
    (he' : e'.WellFormed) :
    ¬ serializeLogEntry e' <+: overwrite (serializeLogEntry e) pos bytes ++ post := by
  intro hpre
  have heq := eq_overwrite_of_prefix he he' hcovers hpre
  have hpay := length_payload e
  have hcrc : (bigEndian 4 (computeCRC32 e.payload).toNat).length = 4 := length_bigEndian _ _
  have hlen := congrArg List.length heq
  rw [length_overwrite (by rw [length_serializeLogEntry]; unfold LogEntry.Covers at hcovers; omega),
    length_serializeLogEntry, length_serializeLogEntry] at hlen
  have hpay' : e'.payload.length = e.payload.length := by
    rw [length_payload, length_payload]
    omega
  by_cases hunder : pos + bytes.length ≤ e.payload.length
  · -- under the checksum: the burst fits into the register
    rw [serializeLogEntry, serializeLogEntry, overwrite_append_left hunder] at heq
    obtain ⟨hpayload, hsum⟩ := List.append_inj heq (by rw [hpay', length_overwrite hunder])
    have hsums : computeCRC32 e'.payload = computeCRC32 e.payload := by
      apply BitVec.eq_of_toNat_eq
      have h := congrArg ofBigEndian hsum
      rwa [ofBigEndian_bigEndian_of_lt (computeCRC32 _).isLt,
        ofBigEndian_bigEndian_of_lt (computeCRC32 _).isLt] at h
    set m := (e.payload.drop pos).take bytes.length with hm
    have hmlen : m.length = bytes.length := by
      rw [hm, List.length_take, List.length_drop]
      omega
    have hsplit : e.payload = e.payload.take pos ++
        (m ++ e.payload.drop (pos + bytes.length)) := by
      rw [hm, ← List.drop_drop, List.take_append_drop, List.take_append_drop]
    rw [hpayload, overwrite] at hsums
    conv_rhs at hsums => rw [hsplit]
    have hbytes := computeCRC32_burst hmlen.symm hle hsums
    refine hne ?_
    rw [serializeLogEntry, overwrite_append_left hunder, overwrite, hbytes, hmlen, ← hsplit]
  · -- in the checksum: it is that of another payload
    obtain ⟨k, rfl⟩ : ∃ k, pos = e.payload.length + k := by
      refine Nat.exists_eq_add_of_le ?_
      unfold LogEntry.Covers at hcovers
      omega
    rw [serializeLogEntry, serializeLogEntry, overwrite_append_right] at heq
    obtain ⟨hpayload, hsum⟩ := List.append_inj heq hpay'
    refine hne ?_
    rw [serializeLogEntry, overwrite_append_right, ← hsum, hpayload]

/-- **The checksum catches every short burst.**  One to four consecutive bytes of an entry of a log file
are changed, without touching its length fields: the decoder returns the entries before it. -/
theorem crc_catches_bursts {es : List LogEntry} (hes : ∀ e ∈ es, e.WellFormed) {j : ℕ}
    {e : LogEntry} (hj : es[j]? = some e) {pos : ℕ} {bytes : Bytes} (hle : bytes.length ≤ 4)
    (hcovers : e.Covers pos bytes.length)
    (hne : overwrite (serializeLog es) ((serializeLog (es.take j)).length + pos) bytes ≠
      serializeLog es) :
    deserializeLogEntry
        (overwrite (serializeLog es) ((serializeLog (es.take j)).length + pos) bytes) =
      some (es.take j, (serializeLog (es.take j)).length) := by
  have he : e.WellFormed := hes e (List.mem_of_getElem? hj)
  have hinside : pos + bytes.length ≤ (serializeLogEntry e).length := by
    rw [length_serializeLogEntry]
    unfold LogEntry.Covers at hcovers
    omega
  have hsplit : serializeLog es = serializeLog (es.take j) ++
      (serializeLogEntry e ++ serializeLog (es.drop (j + 1))) := by
    obtain ⟨hlt, rfl⟩ := List.getElem?_eq_some_iff.mp hj
    rw [← serializeLog_cons, ← serializeLog_append, List.getElem_cons_drop, List.take_append_drop]
  have hover : overwrite (serializeLog es) ((serializeLog (es.take j)).length + pos) bytes =
      serializeLog (es.take j) ++ (overwrite (serializeLogEntry e) pos bytes ++
        serializeLog (es.drop (j + 1))) := by
    rw [hsplit, overwrite_append_right, overwrite_append_left hinside]
  have hchanged : overwrite (serializeLogEntry e) pos bytes ≠ serializeLogEntry e := by
    intro heq
    exact hne (by rw [hover, heq, ← hsplit])
  rw [hover]
  refine deserializeLogEntry_eq_some.mpr ⟨?_, rfl⟩
  refine PrefixCode.isLongest_append.mpr ⟨fun x hx => hes x (List.mem_of_mem_take hx), ?_⟩
  exact not_prefix_of_overwrite he hle hcovers hchanged

theorem crc_catches_bursts_key :
    deserializeLogEntry (overwrite
        (serializeLog [⟨1, 1, ⟨3, 0, 0, [], []⟩⟩, ⟨7, 42, ⟨1, 2, 2, [97, 98], [99, 100]⟩⟩])
        (25 + 21) [0, 98, 99, 255]) =
      some ([⟨1, 1, ⟨3, 0, 0, [], []⟩⟩], 25) := by
  have hes : ∀ e ∈ [(⟨1, 1, ⟨3, 0, 0, [], []⟩⟩ : LogEntry), ⟨7, 42, ⟨1, 2, 2, [97, 98], [99, 100]⟩⟩],
      e.WellFormed := by
    intro e he
    rcases List.mem_pair.mp he with rfl | rfl
    · exact ⟨⟨rfl, rfl, by decide, by decide⟩, by decide, by decide⟩
    · exact ⟨⟨rfl, rfl, by decide, by decide⟩, by decide, by decide⟩
  exact @crc_catches_bursts _ hes 1 _ rfl 21 _ (by decide)
    (Or.inr (Or.inl ⟨by decide, by decide⟩)) (by decide +kernel)

end RaftConsensus
