import RaftConsensus.CommandLine
import RaftConsensus.Library.PrefixCode

/-!
# Dumps (`handleDump`, `handleHash`)

Two nodes are compared by what they print about their state machines.  Sorting makes the text a
function of the contents, whatever the order of the hash map (`sortPairs_eq`).  The contents are a
function of the text as far as its lines are concerned, since neither a key nor a value contains a
line end.  A line does not tell its key from its value, though: a word may contain `=`.

So the comparison is right unless the two contents are `Confusable`: in the order of their
keys, they are the same pair by pair but for the `=` at which the lines are cut.
-/

namespace RaftConsensus

namespace KVStateMachine

variable {m m' : KVStateMachine} {all all' l l' : List (Bytes × Bytes)} {p q : Bytes × Bytes}

/-! ## The order of the pairs -/

instance : Std.Total fun p q : Bytes × Bytes => pairKey p ≤ pairKey q := ⟨fun _ _ => le_total _ _⟩

instance : IsTrans (Bytes × Bytes) fun p q => pairKey p ≤ pairKey q := ⟨fun _ _ _ => le_trans⟩

theorem pairKey_injective : Function.Injective pairKey := by
  rintro ⟨k, v⟩ ⟨k', v'⟩ h
  have hbytes : Function.Injective (List.map UInt8.toNat) :=
    List.map_injective_iff.mpr fun _ _ => UInt8.toNat_inj.mp
  obtain ⟨hk, hv⟩ := Prod.mk.inj (toLex.injective h)
  exact Prod.ext (hbytes hk) (hbytes hv)

/-- The pairs of the map, in the order of their keys. -/
structure Listing (m : KVStateMachine) (l : List (Bytes × Bytes)) : Prop where
  perm : l.Perm m.pairs
  sorted : l.Pairwise fun p q => pairKey p ≤ pairKey q

theorem Listing.unique (h : Listing m l) (h' : Listing m l') : l = l' :=
  List.Perm.eq_of_pairwise (fun _ _ _ _ hpq hqp => pairKey_injective (le_antisymm hpq hqp))
    h.sorted h'.sorted (h.perm.trans h'.perm.symm)

theorem listing_sortPairs (h : all.Perm m.pairs) : Listing m (sortPairs all) :=
  ⟨(List.perm_insertionSort _ all).trans h, List.pairwise_insertionSort _ all⟩

/-- **Sorting forgets the order of the hash map.** -/
theorem sortPairs_eq (h : all.Perm all') : sortPairs all = sortPairs all' :=
  List.Perm.eq_of_pairwise (fun _ _ _ _ hpq hqp => pairKey_injective (le_antisymm hpq hqp))
    (List.pairwise_insertionSort _ all) (List.pairwise_insertionSort _ all')
    ((List.perm_insertionSort _ all).trans (h.trans (List.perm_insertionSort _ all').symm))

/-! ## Contents -/

/-- The same keys are mapped to the same values. -/
def SameContent (m m' : KVStateMachine) : Prop := ∀ k, m.store.lookup k = m'.store.lookup k

theorem nodup_pairs (m : KVStateMachine) : m.pairs.Nodup := by
  refine List.Nodup.map ?_ m.store.nodupKeys.nodup
  rintro ⟨k, v⟩ ⟨k', v'⟩ h
  obtain ⟨rfl, rfl⟩ := Prod.mk.inj h
  rfl

theorem sameContent_iff_perm : SameContent m m' ↔ m.pairs.Perm m'.pairs := by
  rw [List.perm_ext_iff_of_nodup m.nodup_pairs m'.nodup_pairs]
  constructor
  · rintro h ⟨k, v⟩
    rw [mem_pairs, mem_pairs, h k]
  · intro h k
    refine Option.ext fun v => ?_
    rw [← mem_pairs, ← mem_pairs]
    exact h (k, v)

theorem Listing.eq_iff (h : Listing m l) (h' : Listing m' l') : l = l' ↔ SameContent m m' := by
  rw [sameContent_iff_perm]
  constructor
  · rintro rfl
    exact h.perm.symm.trans h'.perm
  · intro hperm
    exact Listing.unique h ⟨h'.perm.trans hperm.symm, h'.sorted⟩

/-! ## Lines -/

/-- The line of a pair, without its end. -/
def pairLine (p : Bytes × Bytes) : Bytes := p.1 ++ 61 :: p.2

/-- `q` is read from the line of `p` when the key is taken to reach to a later `=`. -/
def Recut (p q : Bytes × Bytes) : Prop := ∃ r, q.1 = p.1 ++ 61 :: r ∧ p.2 = r ++ 61 :: q.2

/-- One line for both. -/
def SameLine (p q : Bytes × Bytes) : Prop := p = q ∨ Recut p q ∨ Recut q p

theorem pairLine_eq_iff : pairLine p = pairLine q ↔ SameLine p q := by
  rw [pairLine, pairLine, PrefixCode.append_mark_eq_iff, ← Prod.ext_iff]
  rfl

/-- The text of a listing, line by line. -/
theorem render_eq_encode (all : List (Bytes × Bytes)) :
    render all = (PrefixCode.terminated 10).encode ((sortPairs all).map pairLine) := by
  have heq : ascii "=" = [61] := by decide +kernel
  rw [render, PrefixCode.encode, List.flatMap_map]
  refine List.flatMap_congr fun p _ => ?_
  rw [heq, ascii_newline, pairLine, List.append_assoc p.1, List.singleton_append]
  rfl

/-- The last line of a dump, without its end. -/
def countLine (n : ℕ) : Bytes := ascii "__count__=" ++ ascii (toString n)

theorem handleDump_eq_encode (all : List (Bytes × Bytes)) :
    handleDump all =
      (PrefixCode.terminated 10).encode ((sortPairs all).map pairLine ++ [countLine all.length]) := by
  rw [handleDump, PrefixCode.encode_append, ← render_eq_encode, PrefixCode.encode_singleton,
    ascii_append, ascii_append, ascii_newline]
  rfl

theorem Accepted.newline_notMem_pairLine (h : Accepted m) (hp : p ∈ m.pairs) : 10 ∉ pairLine p := by
  obtain ⟨k, v⟩ := p
  obtain ⟨hk, hv⟩ := h.isWord (mem_pairs.mp hp)
  rw [pairLine, List.mem_append, List.mem_cons]
  rintro (hmem | hmem | hmem)
  · exact hk.newline_notMem hmem
  · exact absurd hmem (by decide)
  · exact hv.newline_notMem hmem

theorem newline_notMem_countLine (n : ℕ) : 10 ∉ countLine n := by
  rw [countLine, List.mem_append]
  rintro (hmem | hmem)
  · exact absurd hmem (by decide +kernel)
  · exact newline_notMem_number n hmem

theorem Listing.newline_notMem (h : Listing m l) (hm : Accepted m) :
    ∀ line ∈ l.map pairLine, 10 ∉ line := by
  intro line hline
  obtain ⟨p, hp, rfl⟩ := List.mem_map.mp hline
  exact hm.newline_notMem_pairLine (h.perm.mem_iff.mp hp)

/-- The digested texts are the same if the listings are the same line by line. -/
theorem render_eq_iff (hm : Accepted m) (hm' : Accepted m') (h : all.Perm m.pairs)
    (h' : all'.Perm m'.pairs) :
    render all = render all' ↔ List.Forall₂ SameLine (sortPairs all) (sortPairs all') := by
  rw [render_eq_encode, render_eq_encode,
    PrefixCode.encode_inj ((listing_sortPairs h).newline_notMem hm)
      ((listing_sortPairs h').newline_notMem hm'),
    ← List.forall₂_eq_eq_eq, List.forall₂_map_left_iff, List.forall₂_map_right_iff]
  simp only [pairLine_eq_iff]

/-- Dumps are the same if the digested texts are. -/
theorem handleDump_eq_iff (hm : Accepted m) (hm' : Accepted m') (h : all.Perm m.pairs)
    (h' : all'.Perm m'.pairs) : handleDump all = handleDump all' ↔ render all = render all' := by
  have hvalid := (listing_sortPairs h).newline_notMem hm
  have hvalid' := (listing_sortPairs h').newline_notMem hm'
  have hlines : ∀ {lines : List Bytes} {n : ℕ}, (∀ line ∈ lines, 10 ∉ line) →
      ∀ line ∈ lines ++ [countLine n], 10 ∉ line := by
    intro lines n hlines line hline
    rcases List.mem_append.mp hline with hline | hline
    · exact hlines line hline
    · rw [List.mem_singleton.mp hline]
      exact newline_notMem_countLine n
  rw [handleDump_eq_encode, handleDump_eq_encode, render_eq_encode, render_eq_encode,
    PrefixCode.encode_inj (hlines hvalid) (hlines hvalid'), PrefixCode.encode_inj hvalid hvalid']
  constructor
  · intro heq
    exact (List.append_inj' heq rfl).1
  · intro heq
    have hlen : all.length = all'.length := by
      have := congrArg List.length heq
      simpa [sortPairs] using this
    rw [heq, hlen]

/-! ## Comparing nodes -/

/-- In the order of their keys, the pairs are the same but for the `=` at which their lines are cut,
and some line is cut differently. -/
def Confusable (m m' : KVStateMachine) : Prop :=
  ∃ l l', Listing m l ∧ Listing m' l' ∧ List.Forall₂ SameLine l l' ∧ l ≠ l'

/-- The dumps of two nodes, and the texts that they digest, are the same exactly if their contents
are; and then the digests are the same. -/
structure TellsApart (m m' : KVStateMachine) (all all' : List (Bytes × Bytes)) : Prop where
  dump : handleDump all = handleDump all' ↔ SameContent m m'
  digested : render all = render all' ↔ SameContent m m'
  hash : SameContent m m' → handleHash all = handleHash all'

/-- **Equal dumps mean equal contents, unless the contents are confusable.** -/
theorem tellsApart_iff (hm : Accepted m) (hm' : Accepted m') (h : all.Perm m.pairs)
    (h' : all'.Perm m'.pairs) : TellsApart m m' all all' ↔ ¬ Confusable m m' := by
  have hlist := listing_sortPairs h
  have hlist' := listing_sortPairs h'
  have hsame := hlist.eq_iff hlist'
  have hrender := render_eq_iff hm hm' h h'
  constructor
  · rintro htells ⟨l, l', hl, hl', hlines, hne⟩
    obtain rfl := hl.unique hlist
    obtain rfl := hl'.unique hlist'
    exact hne (hsame.mpr (htells.digested.mp (hrender.mpr hlines)))
  · intro hclear
    have hdigested : render all = render all' ↔ SameContent m m' := by
      constructor
      · intro heq
        by_contra hdiff
        exact hclear ⟨_, _, hlist, hlist', hrender.mp heq, hsame.not.mpr hdiff⟩
      · intro hcontent
        rw [render, render, hsame.mpr hcontent]
    refine ⟨(handleDump_eq_iff hm hm' h h').trans hdigested, hdigested, fun hcontent => ?_⟩
    have hlen : all.length = all'.length :=
      (h.trans ((sameContent_iff_perm.mp hcontent).trans h'.symm)).length_eq
    rw [handleHash, handleHash, hdigested.mpr hcontent, hlen]

/-- A key without `=` ends where its line has the first one. -/
theorem eq_of_sameLine (h : SameLine p q) (hp : 61 ∉ p.1) (hq : 61 ∉ q.1) : p = q := by
  rcases h with heq | ⟨r, hr, -⟩ | ⟨r, hr, -⟩
  · exact heq
  · exact absurd (by simp [hr]) hq
  · exact absurd (by simp [hr]) hp

/-- Contents without a `=` in a key are told apart. -/
theorem not_confusable (h : ∀ p ∈ m.pairs, 61 ∉ p.1) (h' : ∀ p ∈ m'.pairs, 61 ∉ p.1) :
    ¬ Confusable m m' := by
  rintro ⟨l, l', hl, hl', hlines, hne⟩
  have hkeys : ∀ p ∈ l, 61 ∉ p.1 := fun p hp => h p (hl.perm.mem_iff.mp hp)
  have hkeys' : ∀ p ∈ l', 61 ∉ p.1 := fun p hp => h' p (hl'.perm.mem_iff.mp hp)
  clear hl hl'
  refine hne ?_
  clear hne
  induction hlines with
  | nil => rfl
  | @cons p q l l' hpq hlines ih =>
    rw [eq_of_sameLine hpq (hkeys p List.mem_cons_self) (hkeys' q List.mem_cons_self),
      ih (fun p hp => hkeys p (List.mem_cons_of_mem _ hp))
        (fun p hp => hkeys' p (List.mem_cons_of_mem _ hp))]

/-- Two clients have put two keys, in different orders, and the maps are gone through in one
order. -/
theorem tellsApart_iff_two : ∃ m m' : KVStateMachine,
    m.pairs = [([98], [50]), ([97], [49])] ∧ m'.pairs = [([97], [49]), ([98], [50])] ∧
      (TellsApart m m' [([98], [50]), ([97], [49])] [([98], [50]), ([97], [49])] ↔
        ¬ Confusable m m') := by
  have h : Accepted ((KVStateMachine.empty.apply (Request.put [97] [49]).command).apply
      (Request.put [98] [50]).command) :=
    .apply (.apply .empty (show branch (ascii "PUT a 1\n") = _ by decide +kernel))
      (show branch (ascii "PUT b 2\r\n") = _ by decide +kernel)
  have h' : Accepted ((KVStateMachine.empty.apply (Request.put [98] [50]).command).apply
      (Request.put [97] [49]).command) :=
    .apply (.apply .empty (show branch (ascii "put b 2\n") = _ by decide +kernel))
      (show branch (ascii " PUT  a 1 x\n") = _ by decide +kernel)
  exact ⟨_, _, rfl, rfl, tellsApart_iff h h' (List.Perm.refl _) (List.Perm.swap _ _ _)⟩

/-- **One dump for two contents.**  `a` with the value `b=c`, and `a=b` with the value `c`. -/
theorem one_dump_for_two : ∃ m m' : KVStateMachine, Accepted m ∧ Accepted m' ∧
    m.pairs = [(ascii "a", ascii "b=c")] ∧ m'.pairs = [(ascii "a=b", ascii "c")] ∧
    handleDump m.pairs = handleDump m'.pairs ∧ handleHash m.pairs = handleHash m'.pairs ∧
    ¬ SameContent m m' := by
  refine ⟨KVStateMachine.empty.apply (Request.put (ascii "a") (ascii "b=c")).command,
    KVStateMachine.empty.apply (Request.put (ascii "a=b") (ascii "c")).command,
    .apply .empty (show branch (ascii "PUT a b=c\n") = _ by decide +kernel),
    .apply .empty (show branch (ascii "PUT a=b c\n") = _ by decide +kernel), rfl, rfl,
    by decide +kernel, by decide +kernel, fun h => ?_⟩
  exact absurd (h (ascii "a")) (by decide +kernel)

end KVStateMachine

end RaftConsensus
