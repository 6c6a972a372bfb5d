import LeanBbg.Delta
import LeanBbg.LibPrefix
import LeanBbg.RollingHash

/-! The record stream as a canonical encoding of the graph: its byte keys ascend strictly, it determines what
it lists, a point read finds exactly its records, and a record that is read restores itself anywhere. -/

set_option linter.unusedSectionVars false

namespace LeanBbg

open Bytes

variable {F : Type} [Hemera F] [DecidableEq F] [Brakedown F]

/-! ### Order -/

theorem compare_toList (k k' : Bytes32) : compare k.toList k'.toList = compare k k' := by
  rw [Vector.compare_eq_compare_toArray, Array.compare_eq_compare_toList]
  rfl

/-- Heights in byte order are heights in numerical order. -/
theorem compare_u64BeBytes {h h' : UInt64} (hlt : compare h h' = .lt) : compare (u64BeBytes h) (u64BeBytes h') = .lt := by
  refine compare_reverse_of_leValue_lt (by simp) ?_
  rw [u64LeBytes, u64LeBytes, leValue_leBytes_of_lt h.toNat_lt, leValue_leBytes_of_lt h'.toNat_lt]
  exact UInt64.lt_iff_toNat_lt.mp (Std.compare_eq_lt.mp hlt)

section Streams

variable {K V : Type} [Ord K] [Std.TransOrd K] [Std.LawfulEqOrd K] {domain : UInt8} {entity : K → List UInt8}
  {value : V → List UInt8}

theorem recordStream_head {map : OrdMap K V} {r : List UInt8 × List UInt8}
    (hr : r ∈ recordStream domain entity value map) : r.1.head? = some domain := by
  obtain ⟨k, v, -, rfl⟩ := mem_recordStream.mp hr
  rfl

theorem recordStream_pairwise (hentity : ∀ k k', compare k k' = .lt → compare (entity k) (entity k') = .lt)
    (map : OrdMap K V) : (recordStream domain entity value map).Pairwise fun r r' => compare r.1 r'.1 = .lt := by
  rw [recordStream, List.pairwise_map]
  exact Std.ExtTreeMap.ordered_keys_toList.imp fun hlt => compare_cons_eq_lt.mpr (.inr ⟨rfl, hentity _ _ hlt⟩)

/-- A stream determines its map. -/
theorem recordStream_injective (hentity : Function.Injective entity) (hvalue : Function.Injective value)
    {map map' : OrdMap K V}
    (h : ∀ r, r ∈ recordStream domain entity value map ↔ r ∈ recordStream domain entity value map') : map = map' := by
  have hsub : ∀ {m m' : OrdMap K V}, (∀ r, r ∈ recordStream domain entity value m → r ∈ recordStream domain entity value m') →
      ∀ (k : K) (v : V), m[k]? = some v → m'[k]? = some v := by
    intro m m' hmem k v hget
    obtain ⟨k', v', hget', heq⟩ := mem_recordStream.mp (hmem _ (mem_recordStream.mpr ⟨k, v, hget, rfl⟩))
    obtain ⟨hk, hv⟩ := Prod.mk.inj heq
    rw [hentity (List.cons.inj hk).2, hvalue hv]
    exact hget'
  refine Std.ExtTreeMap.ext_getElem? fun k => Option.ext fun v => ⟨?_, ?_⟩
  · exact hsub (fun r hr => (h r).mp hr) k v
  · exact hsub (fun r hr => (h r).mpr hr) k v

end Streams

variable {b b' : Bbg F}

/-- The keys of the stream at an index begin with the index. -/
theorem recordStreams_head {i : Nat} {stream : List (List UInt8 × List UInt8)} (h : (recordStreams b)[i]? = some stream)
    {r : List UInt8 × List UInt8} (hr : r ∈ stream) : ∃ d : UInt8, d.toNat = i ∧ r.1.head? = some d := by
  have hi : i < 17 := (List.getElem?_eq_some_iff.mp h).1
  interval_cases i
  · obtain rfl := Option.some_inj.mp h
    obtain rfl := List.mem_singleton.mp hr
    exact ⟨0, rfl, rfl⟩
  all_goals
    obtain rfl := Option.some_inj.mp h
    exact ⟨_, rfl, recordStream_head hr⟩

theorem recordStreams_pairwise {stream : List (List UInt8 × List UInt8)} (h : stream ∈ recordStreams b) :
    stream.Pairwise fun r r' => compare r.1 r'.1 = .lt := by
  have hvector : ∀ k k' : Bytes32, compare k k' = .lt → compare k.toList k'.toList = .lt :=
    fun k k' hlt => (compare_toList k k').trans hlt
  simp only [recordStreams, fixedStreams, List.cons_append, List.nil_append, List.mem_cons, List.not_mem_nil,
    or_false] at h
  rcases h with rfl | rfl | rfl | rfl | rfl | rfl | rfl | rfl | rfl | rfl | rfl | rfl | rfl | rfl | rfl | rfl | rfl
  · exact List.pairwise_singleton _ _
  all_goals first
    | exact recordStream_pairwise hvector _
    | exact recordStream_pairwise (fun _ _ => compare_u64BeBytes) _

/-- The byte keys of the records ascend strictly. -/
theorem recordList_pairwise (b : Bbg F) : (recordList b).Pairwise fun r r' => compare r.1 r'.1 = .lt := by
  refine List.pairwise_flatten.mpr ⟨fun stream hstream => recordStreams_pairwise hstream, ?_⟩
  refine List.pairwise_iff_getElem.mpr fun i j hi hj hij r hr r' hr' => ?_
  obtain ⟨d, hd, hhead⟩ := recordStreams_head (List.getElem?_eq_getElem hi) hr
  obtain ⟨d', hd', hhead'⟩ := recordStreams_head (List.getElem?_eq_getElem hj) hr'
  obtain ⟨t, hkey⟩ := List.head?_eq_some_iff.mp hhead
  obtain ⟨t', hkey'⟩ := List.head?_eq_some_iff.mp hhead'
  rw [hkey, hkey', compare_cons_eq_lt]
  exact .inl (UInt8.lt_iff_toNat_lt.mpr (by omega))

/-- The stream of a domain is what the record list has under it. -/
theorem mem_stream_iff {i : Nat} {stream : List (List UInt8 × List UInt8)} (h : (recordStreams b)[i]? = some stream)
    {r : List UInt8 × List UInt8} : r ∈ stream ↔ r ∈ recordList b ∧ r.1.head?.map UInt8.toNat = some i := by
  constructor
  · intro hr
    obtain ⟨d, hd, hhead⟩ := recordStreams_head h hr
    exact ⟨mem_recordList_of_stream i h hr, by rw [hhead, Option.map_some, hd]⟩
  · rintro ⟨hr, hi⟩
    obtain ⟨stream', hstream', hr'⟩ := List.mem_flatten.mp hr
    obtain ⟨j, hj⟩ := List.mem_iff_getElem?.mp hstream'
    obtain ⟨d, hd, hhead⟩ := recordStreams_head hj hr'
    rw [hhead, Option.map_some, Option.some_inj, hd] at hi
    subst hi
    rwa [Option.some_inj.mp (h.symm.trans hj)]

/-! ### Values -/

theorem adjacencyBytes_injective {l l' : AxonList} (h : adjacencyBytes l.axons = adjacencyBytes l'.axons) : l = l' := by
  refine AxonList.ext (flatMap_injective (by decide : 0 < 32) (fun _ => Vector.length_toList) ?_
    (List.append_inj h (by simp [integers])).2)
  exact fun _ _ => Vector.toList_inj.mp

/-- Two records of a cell with the same bytes are the same. -/
theorem Cell.encode_injective [NebuRoundTrip F] (c : Cell) : Function.Injective (c.encode (F := F)) := by
  intro v v' h
  have hdecode : ∀ {c : Cell} {v v' : c.Val F}, c.Short v → c.Short v' → c.encode v = c.encode v' → v = v' := by
    intro c v v' hv hv' h
    have hread := Cell.decode_encode c v hv
    rw [h, Cell.decode_encode c v' hv'] at hread
    exact (Option.some_inj.mp (congrArg Prod.fst (Option.some_inj.mp hread))).symm
  cases c with
  | axonsOut p => exact adjacencyBytes_injective h
  | axonsIn p => exact adjacencyBytes_injective h
  | particle p => exact hdecode (c := .particle p) trivial trivial h
  | neuron id => exact hdecode (c := .neuron id) trivial trivial h
  | time t => exact hdecode (c := .time t) trivial trivial h
  | signal k => exact hdecode (c := .signal k) trivial trivial h
  | commitment k => exact hdecode (c := .commitment k) trivial trivial h
  | nullifier k => rfl
  | balance k => exact hdecode (c := .balance k) trivial trivial h
  | intent k => exact hdecode (c := .intent k) trivial trivial h
  | axonEdge a => exact hdecode (c := .axonEdge a) trivial trivial h
  | lastTouched a => exact hdecode (c := .lastTouched a) trivial trivial h

theorem u32LeBytes_injective : Function.Injective u32LeBytes := fun v v' h =>
  UInt32.toNat_inj.mp (leBytes_injective v.toNat_lt v'.toNat_lt h)

theorem locationBytes_injective : Function.Injective locationBytes := by
  rintro ⟨lat, lon⟩ ⟨lat', lon'⟩ h
  obtain ⟨hlat, hlon⟩ := List.append_inj h (by simp [u32LeBytes])
  rw [LocationRecord.mk.injEq]
  exact ⟨i32Word_injective (congrArg UInt32.toUInt64 (u32LeBytes_injective hlat)),
    i32Word_injective (congrArg UInt32.toUInt64 (u32LeBytes_injective hlon))⟩

theorem integers_singleton_injective {v v' : UInt64} (h : integers [v] = integers [v']) : v = v' := by
  rw [integers, integers, List.flatMap_singleton, List.flatMap_singleton] at h
  exact u64LeBytes_injective h

theorem coinBytes_injective : Function.Injective fun c : CoinRecord => integers [c.totalSupply] := by
  rintro ⟨supply⟩ ⟨supply'⟩ h
  rw [CoinRecord.mk.injEq]
  exact integers_singleton_injective h

theorem cardBytes_injective : Function.Injective cardBytes := by
  rintro ⟨owner, particle, author, valence, since⟩ ⟨owner', particle', author', valence', since'⟩ h
  obtain ⟨howner, h⟩ := List.append_inj h (by simp)
  obtain ⟨hparticle, h⟩ := List.append_inj h (by simp)
  obtain ⟨hauthor, h⟩ := List.append_inj h (by simp)
  obtain ⟨hvalence, hsince⟩ := List.cons.inj h
  rw [CardRecord.mk.injEq]
  exact ⟨Vector.toList_inj.mp howner, Vector.toList_inj.mp hparticle, Vector.toList_inj.mp hauthor,
    Valence.byte_injective (congrArg UInt8.toUInt64 hvalence), u64LeBytes_injective hsince⟩

theorem fileBytes_injective : Function.Injective fileBytes := by
  rintro ⟨available, chunks⟩ ⟨available', chunks'⟩ h
  obtain ⟨havailable, hchunks⟩ := List.cons.inj h
  rw [FileRecord.mk.injEq]
  refine ⟨?_, u32LeBytes_injective hchunks⟩
  cases available <;> cases available' <;> first | rfl | exact absurd havailable (show ¬(0 : UInt8) = 1 by decide) |
    exact absurd havailable (show ¬(1 : UInt8) = 0 by decide)

/-- The metadata record determines the scalar fields. -/
theorem metadata_injective (h : metadata b = metadata b') :
    b.state.height = b'.state.height ∧ b.checkpoint.height = b'.checkpoint.height ∧
      b.checkpoint.root = b'.checkpoint.root ∧ b.state.diameterOverride = b'.state.diameterOverride ∧
      b.pruneConfig = b'.pruneConfig := by
  simp only [metadata, List.append_assoc] at h
  obtain ⟨-, h⟩ := List.append_inj h (by simp [u32LeBytes])
  obtain ⟨hheight, h⟩ := List.append_inj h (by simp)
  obtain ⟨-, h⟩ := List.append_inj h (by simp)
  obtain ⟨hcheckpoint, h⟩ := List.append_inj h (by simp)
  obtain ⟨hroot, h⟩ := List.append_inj h (by simp)
  obtain ⟨hsome, h⟩ := List.append_inj h (by simp)
  have hdiameter : b.state.diameterOverride = b'.state.diameterOverride ∧
      u64LeBytes b.pruneConfig.maxBytes ++ ([b.pruneConfig.rankFloorPct] ++ u64LeBytes b.pruneConfig.halfLifeEpochs) =
        u64LeBytes b'.pruneConfig.maxBytes ++ ([b'.pruneConfig.rankFloorPct] ++ u64LeBytes b'.pruneConfig.halfLifeEpochs) := by
    cases hd : b.state.diameterOverride with
    | none =>
        cases hd' : b'.state.diameterOverride with
        | none =>
            rw [hd, hd'] at h
            exact ⟨rfl, h⟩
        | some d' =>
            rw [hd, hd'] at hsome
            exact absurd (List.cons.inj hsome).1 (show ¬(0 : UInt8) = 1 by decide)
    | some d =>
        cases hd' : b'.state.diameterOverride with
        | none =>
            rw [hd, hd'] at hsome
            exact absurd (List.cons.inj hsome).1 (show ¬(1 : UInt8) = 0 by decide)
        | some d' =>
            rw [hd, hd', Option.toList_some, Option.toList_some, List.flatMap_singleton, List.flatMap_singleton] at h
            obtain ⟨hword, h⟩ := List.append_inj h (by simp)
            exact ⟨congrArg some (u64LeBytes_injective hword), h⟩
  obtain ⟨hdiameter, h⟩ := hdiameter
  obtain ⟨hmax, h⟩ := List.append_inj h (by simp)
  obtain ⟨hpct, hhalf⟩ := List.cons.inj h
  refine ⟨u64LeBytes_injective hheight, u64LeBytes_injective hcheckpoint, Vector.toList_inj.mp hroot, hdiameter, ?_⟩
  cases hb : b.pruneConfig
  cases hb' : b'.pruneConfig
  rw [hb, hb'] at hmax hpct hhalf
  rw [PruneConfig.mk.injEq]
  exact ⟨u64LeBytes_injective hmax, hpct, u64LeBytes_injective hhalf⟩

/-! ### The stream determines the graph -/

/-- A point read finds exactly the records of the stream. -/
theorem read_eq_some_iff (b : Bbg F) (a : Addr) (v : List UInt8) : read b a = some v ↔ (a.key, v) ∈ recordList b := by
  rw [← recordMap_key, recordMap_getElem?]

theorem read_eq_of_recordList (h : recordList b = recordList b') (a : Addr) : read b a = read b' a := by
  refine Option.ext fun v => ?_
  rw [read_eq_some_iff, read_eq_some_iff, h]

/-- Streams of equal record lists have the same records. -/
theorem mem_stream_congr (h : recordList b = recordList b') {i : Nat} {stream stream' : List (List UInt8 × List UInt8)}
    (hstream : (recordStreams b)[i]? = some stream) (hstream' : (recordStreams b')[i]? = some stream')
    (r : List UInt8 × List UInt8) : r ∈ stream ↔ r ∈ stream' := by
  rw [mem_stream_iff hstream, mem_stream_iff hstream', h]

/-- Equal record lists come from graphs that differ at most in the root version and the checkpoint proof. -/
theorem eq_of_recordList [NebuRoundTrip F] (h : recordList b = recordList b')
    (hacc : b.checkpoint.acc = b'.checkpoint.acc) :
    b = { b' with state := { b'.state with rootVersion := b.state.rootVersion } } := by
  have hvector : Function.Injective (Vector.toList : Bytes32 → List UInt8) := fun _ _ => Vector.toList_inj.mp
  obtain ⟨hheight, hcheckpoint, hroot, hdiameter, hconfig⟩ :=
    metadata_injective (Option.some_inj.mp (read_eq_of_recordList h .metadata))
  have hcell : ∀ c : Cell, Cells.get c b = Cells.get c b' := fun c =>
    Option.map_injective (Cell.encode_injective c) (read_eq_of_recordList h (.cell c))
  refine Bbg.ext_cells (fun c => ?_) ?_ hheight ?_
  · rw [hcell]
    cases c <;> rfl
  · simp only [Bbg.fixed, Fixed.mk.injEq]
    exact ⟨recordStream_injective hvector locationBytes_injective (mem_stream_congr h (i := 5) rfl rfl),
      recordStream_injective hvector coinBytes_injective (mem_stream_congr h (i := 6) rfl rfl),
      recordStream_injective hvector cardBytes_injective (mem_stream_congr h (i := 7) rfl rfl),
      recordStream_injective hvector fileBytes_injective (mem_stream_congr h (i := 8) rfl rfl), hdiameter, trivial, hconfig⟩
  · cases hb : b.checkpoint
    cases hb' : b'.checkpoint
    rw [hb, hb'] at hcheckpoint hroot hacc
    dsimp only at hcheckpoint hroot hacc
    rw [hcheckpoint, hroot, hacc]

/-- A record that is read and written back anywhere is the record of that address, or its absence. -/
theorem restore_read [NebuRoundTrip F] {c : Cell} (hshort : ∀ r, Cells.get c b = some r → c.Short r) :
    restore b' (.cell c) (read b (.cell c)) = some (Cells.put c (Cells.get c b) b') := by
  rw [read]
  cases hget : Cells.get c b with
  | none => rfl
  | some r =>
      rw [Option.map_some, restore, Cell.decode_encode c r (hshort r hget)]
      rfl

variable (F) in
/-- The record stream is a canonical encoding. Without a checkpoint proof it exists, in strictly ascending order
of the byte keys; equal streams come from graphs that differ at most in the root version; a point read finds
exactly its records; and what is read at an address, written back to any graph, makes the record there the same.
The length of an adjacency list is a `usize`. -/
theorem records_canonical [NebuRoundTrip F] :
    (∀ b : Bbg F, b.checkpoint.acc.isNone → ∃ stream, records b = .ok stream ∧
      (stream.Pairwise fun r r' => compare r.1 r'.1 = .lt) ∧ ∀ a v, read b a = some v ↔ (a.key, v) ∈ stream) ∧
    (∀ b b' : Bbg F, b.checkpoint.acc.isNone → b'.checkpoint.acc.isNone → records b = records b' →
      b = { b' with state := { b'.state with rootVersion := b.state.rootVersion } }) ∧
    ∀ (b b' : Bbg F) (c : Cell), (∀ r, Cells.get c b = some r → c.Short r) →
      ∃ b'', restore b' (.cell c) (read b (.cell c)) = some b'' ∧ Cells.get c b'' = Cells.get c b ∧
        read b'' (.cell c) = read b (.cell c) := by
  have hrecords : ∀ b : Bbg F, b.checkpoint.acc.isNone → records b = .ok (recordList b) := by
    intro b hacc
    rw [records, Option.isNone_iff_eq_none.mp hacc]
    rfl
  refine ⟨fun b hacc => ⟨recordList b, hrecords b hacc, recordList_pairwise b, read_eq_some_iff b⟩,
    fun b b' hacc hacc' h => ?_, fun b b' c hshort => ⟨_, restore_read hshort, ?_, ?_⟩⟩
  · rw [hrecords b hacc, hrecords b' hacc'] at h
    refine eq_of_recordList (Except.ok.inj h) ?_
    rw [Option.isNone_iff_eq_none.mp hacc, Option.isNone_iff_eq_none.mp hacc']
  · exact Cells.get_put_self c _ b'
  · rw [read, read, Cells.get_put_self]

theorem read_applyIntent (b : Bbg F) (i : IntentRecord) :
    read (b.applyIntent i) (.cell (.intent (intentKey F i.neuron i.h0 i.scopeHash))) = some (intentBytes i) := by
  have hget : (b.applyIntent i).state.intents[intentKey F i.neuron i.h0 i.scopeHash]? = some i := by
    change (b.state.intents.insert _ _)[_]? = _
    rw [OrdMap.getElem?_insert, if_pos rfl]
  exact read_of_get (c := .intent _) hget

/-- The stream of a graph with one intent has its record, under the hash of its scope. -/
theorem records_canonical_intent : ∃ stream,
    records ((Bbg.new : Bbg Rolling).applyIntent ⟨Vector.replicate 32 1, 2, Vector.replicate 32 3, Vector.replicate 64 4⟩) =
      .ok stream ∧
    (recordKey 14 (intentKey Rolling (Vector.replicate 32 1) 2 (Vector.replicate 32 3)).toList,
      intentBytes ⟨Vector.replicate 32 1, 2, Vector.replicate 32 3, Vector.replicate 64 4⟩) ∈ stream := by
  obtain ⟨stream, hrecords, -, hread⟩ := (records_canonical Rolling).1
    ((Bbg.new : Bbg Rolling).applyIntent ⟨Vector.replicate 32 1, 2, Vector.replicate 32 3, Vector.replicate 64 4⟩) rfl
  exact ⟨stream, hrecords, (hread _ _).mp (read_applyIntent _ _)⟩

end LeanBbg
