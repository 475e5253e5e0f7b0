import LinuxUtilities.Pathaudit.Tables

/-! `record_executable_hit` keeps the plain-list account of the hits: the first hit
of a command is its winner, and each further realpath is one shadow record. -/
namespace Pathaudit
open CString LinearProbing

theorem cmpUnsignedBytes_eq_zero {s t : CStr} : cmpUnsignedBytes s t = 0 ↔ s = t := strcmp_eq_zero

/-- The index of a buffer covers its items; without slots there are no items. -/
def Buffer.Ok {α : Type} (hash : α → ℕ) (b : Buffer α) : Prop :=
  b.indexSlots = [] ∧ b.items = [] ∨
    Index (Buffer.hashAt hash b.items) b.items.length b.indexSlots

section Append
variable {α : Type} {hash : α → ℕ}

theorem Buffer.empty_ok : (Buffer.empty : Buffer α).Ok hash := .inl ⟨rfl, rfl⟩

theorem growCap_spec {len fuel newCap out k : ℕ} (hk : newCap = 2 ^ k)
    (h : growCap len fuel newCap = some out) : (∃ j, out = 2 ^ j) ∧ 2 * len ≤ out := by
  induction fuel generalizing newCap k with
  | zero => simp [growCap] at h
  | succ fuel ih =>
    rw [growCap] at h
    split at h
    · split at h
      · contradiction
      · exact ih (by rw [hk, pow_succ]) h
    next hlen =>
      obtain rfl := Option.some.inj h
      exact ⟨⟨k, hk⟩, by omega⟩

theorem indexRehash_spec {b : Buffer α} {newCap k : ℕ} (hk : newCap = 2 ^ k)
    (hload : 2 * b.items.length ≤ newCap) (slotsOk : Bool) :
    indexRehash hash b newCap slotsOk = some (false, b) ∨
      ∃ slots, indexRehash hash b newCap slotsOk = some (true, { b with indexSlots := slots }) ∧
        Index (Buffer.hashAt hash b.items) b.items.length slots := by
  unfold indexRehash
  split
  · exact .inl rfl
  · split
    · exact .inl rfl
    · obtain ⟨slots, hb, -, hI⟩ :=
        Index.build_index (Buffer.hashAt hash b.items) hk hload
      exact .inr ⟨slots, by rw [hb, Option.map_some], hI⟩

theorem hashAt_append {items : List α} {item : α} {i : ℕ} (hi : i < items.length) :
    Buffer.hashAt hash (items ++ [item]) i = Buffer.hashAt hash items i := by
  rw [Buffer.hashAt, Buffer.hashAt, List.getElem?_append_left hi]

/-- Storing the tail of a buffer whose older items are indexed. -/
theorem indexInsertTail_spec {b : Buffer α} (hb : b.Ok hash) (item : α) (cap : ℕ)
    (slotsOk : Bool) :
    let b' : Buffer α := ⟨b.items ++ [item], cap, b.indexSlots⟩
    indexInsertTail hash b' slotsOk = some (false, b') ∨
      ∃ slots, indexInsertTail hash b' slotsOk = some (true, { b' with indexSlots := slots }) ∧
        Index (Buffer.hashAt hash b'.items) b'.items.length slots := by
  intro b'
  have hlen : b'.items.length = b.items.length + 1 := by simp [b']
  have hpow : ∃ k, (if b'.indexCap = 0 then 16 else b'.indexCap * 2) = 2 ^ k := by
    rcases hb with ⟨hnil, -⟩ | hI
    · exact ⟨4, by simp [b', Buffer.indexCap, hnil]⟩
    · obtain ⟨k, hk⟩ := hI.pow
      have hpos := hI.length_pos
      refine ⟨k + 1, ?_⟩
      rw [if_neg (by simp only [b', Buffer.indexCap]; omega), pow_succ, ← hk]
      rfl
  unfold indexInsertTail
  rw [if_neg (by omega)]
  simp only
  split
  next hgrow =>
    split
    · exact .inl rfl
    · split
      · exact .inl rfl
      next newCap hcap =>
        obtain ⟨k, hk⟩ := hpow
        obtain ⟨⟨j, hj⟩, hload⟩ := growCap_spec hk hcap
        exact indexRehash_spec hj hload slotsOk
  next hroom =>
    push Not at hroom
    rcases hb with ⟨hnil, -⟩ | hI
    · exact (hroom.1 (by simp [b', Buffer.indexCap, hnil])).elim
    · have hI' : Index (Buffer.hashAt hash b'.items) b.items.length b.indexSlots :=
        hI.congr_hash fun i hi => (hashAt_append hi).symm
      have hload : 2 * (b.items.length + 1) ≤ b.indexSlots.length := by
        have := hroom.2
        simp only [hlen, b', Buffer.indexCap] at this
        omega
      obtain ⟨slots, hins, -, hI''⟩ := hI'.insert_next hload
      refine .inr ⟨slots, ?_, by rw [hlen]; exact hI''⟩
      have htail : b'.items.length - 1 = b.items.length := by omega
      rw [htail]
      change (insert b.indexSlots _ _).map _ = _
      rw [hins, Option.map_some]

/-- An append ends; it adds the item and keeps the index, or changes no item. -/
theorem bufferAppend_ok (itemSize : ℕ) {b : Buffer α} (hb : b.Ok hash) (item : α)
    (allocs : AppendAllocs) :
    ∃ done b', bufferAppend hash itemSize b item allocs = some (done, b') ∧ b'.Ok hash ∧
      b'.items = if done then b.items ++ [item] else b.items := by
  unfold bufferAppend
  extract_lets newCap grown
  split
  · exact ⟨false, b, rfl, hb, rfl⟩
  · rcases indexInsertTail_spec hb item grown.cap allocs.slots with hf | ⟨slots, ht, hI⟩
    · exact ⟨false, ⟨b.items, grown.cap, b.indexSlots⟩,
        (congrArg (Option.map _) hf).trans rfl, hb, rfl⟩
    · exact ⟨true, _, (congrArg (Option.map _) ht).trans rfl, .inr hI, rfl⟩

/-- Capacities in proportion to the items, so that no size guard is in reach. -/
structure Buffer.Sized (b : Buffer α) : Prop where
  fits : b.items.length ≤ b.cap
  cap_le : b.cap ≤ max 16 (2 * b.items.length)
  indexCap_le : b.indexCap ≤ max 16 (4 * b.items.length)

theorem Buffer.empty_sized : (Buffer.empty : Buffer α).Sized := by
  constructor <;> simp [Buffer.empty, Buffer.indexCap]

theorem growCap_of_le {len newCap : ℕ} (h : 2 * len ≤ newCap) :
    growCap len 64 newCap = some newCap := by
  unfold growCap
  rw [if_neg (by omega)]

theorem indexRehash_done {b : Buffer α} {newCap k : ℕ} (hk : newCap = 2 ^ k)
    (hload : 2 * b.items.length ≤ newCap) (hsize : newCap ≤ sizeMax / 8) :
    ∃ slots, indexRehash hash b newCap true = some (true, { b with indexSlots := slots }) ∧
      slots.length = newCap := by
  have hpos : newCap ≠ 0 := by rw [hk]; positivity
  have hmask : newCap &&& (newCap - 1) = 0 := by
    rw [hk, Nat.and_two_pow_sub_one_eq_mod, Nat.mod_self]
  obtain ⟨slots, hb, hlen, -⟩ := Index.build_index (Buffer.hashAt hash b.items) hk hload
  unfold indexRehash
  rw [if_neg (by omega), if_neg (by simp), hb]
  exact ⟨slots, rfl, hlen⟩

/-- With its memory granted, storing the tail of a buffer of ordinary size succeeds. -/
theorem indexInsertTail_done {b : Buffer α} (hb : b.Ok hash) (hs : b.Sized) (item : α) (cap : ℕ)
    (hlen : b.items.length < 2 ^ 57) :
    let b' : Buffer α := ⟨b.items ++ [item], cap, b.indexSlots⟩
    ∃ slots, indexInsertTail hash b' true = some (true, { b' with indexSlots := slots }) ∧
      slots.length ≤ max 16 (4 * b'.items.length) := by
  intro b'
  have hlen' : b'.items.length = b.items.length + 1 := by simp [b']
  have hcap' : b'.indexCap = b.indexSlots.length := rfl
  have hcap : b'.indexCap ≤ max 16 (4 * b.items.length) := hs.indexCap_le
  have hsize : b'.indexCap ≤ sizeMax / 16 := by
    unfold sizeMax
    omega
  unfold indexInsertTail
  rw [if_neg (by omega)]
  dsimp only
  rcases hb with ⟨hnil, hitems⟩ | hI
  · -- the first item: the index gets its first 16 slots
    have hzero : b'.indexCap = 0 := by rw [hcap', hnil, List.length_nil]
    have hone : b'.items.length = 1 := by rw [hlen', hitems, List.length_nil]
    rw [if_pos (.inl hzero), if_neg (by omega), if_pos hzero, growCap_of_le (by omega)]
    obtain ⟨slots, hr, hl⟩ := @indexRehash_done α hash b' 16 4 (by norm_num) (by omega)
      (by simp [sizeMax])
    exact ⟨slots, hr, by omega⟩
  · have hpos := hI.length_pos
    have hload := hI.load
    by_cases hgrow : b'.items.length > b'.indexCap / 2
    · obtain ⟨k, hk⟩ := hI.pow
      rw [if_pos (.inr hgrow), if_neg (by omega), if_neg (by omega), growCap_of_le (by omega)]
      obtain ⟨slots, hr, hl⟩ := @indexRehash_done α hash b' (b'.indexCap * 2) (k + 1)
        (by rw [hcap', hk, pow_succ]) (by omega) (by omega)
      exact ⟨slots, hr, by omega⟩
    · rw [if_neg (by omega)]
      have hI' : Index (Buffer.hashAt hash b'.items) b.items.length b.indexSlots :=
        hI.congr_hash fun i hi => (hashAt_append hi).symm
      obtain ⟨slots, hins, hl, -⟩ := hI'.insert_next (by omega)
      have htail : b'.items.length - 1 = b.items.length := by omega
      refine ⟨slots, ?_, by omega⟩
      rw [htail]
      exact congrArg (Option.map _) hins

/-- With its memory granted, an append to a buffer of ordinary size succeeds. -/
theorem bufferAppend_done {itemSize : ℕ} (hpos : 0 < itemSize) (hsize : itemSize ≤ 32)
    {b : Buffer α} (hb : b.Ok hash) (hs : b.Sized) (item : α) (hlen : b.items.length < 2 ^ 57) :
    ∃ b', bufferAppend hash itemSize b item ⟨true, true⟩ = some (true, b') ∧ b'.Sized := by
  have hfits := hs.fits
  have hcap := hs.cap_le
  have hquot : 2 ^ 59 - 1 ≤ sizeMax / itemSize :=
    calc 2 ^ 59 - 1 = sizeMax / 32 := by norm_num [sizeMax]
      _ ≤ sizeMax / itemSize := Nat.div_le_div_left hsize hpos
  unfold bufferAppend
  extract_lets newCap grown
  have hnew : b.items.length = b.cap → b.cap < newCap ∧ newCap ≤ max 16 (2 * b.cap) := by
    intro hfull
    simp only [newCap]
    split
    · omega
    · rw [Nat.mod_eq_of_lt (by omega)]
      omega
  rw [if_neg (by
    rintro ⟨hfull, hbad⟩
    have hn := hnew hfull
    simp only [Bool.true_eq_false, or_false] at hbad
    omega)]
  obtain ⟨slots, hins, hslots⟩ := indexInsertTail_done hb hs item grown.cap hlen
  refine ⟨_, congrArg (Option.map _) hins, ?_⟩
  have hgrown : grown.cap = if b.items.length = b.cap then newCap else b.cap := rfl
  have hitems : (b.items ++ [item]).length = b.items.length + 1 := List.length_append
  refine ⟨?_, ?_, hslots⟩
  · change (b.items ++ [item]).length ≤ grown.cap
    rw [hgrown, hitems]
    split
    next hfull =>
      have := hnew hfull
      omega
    next => omega
  · change grown.cap ≤ max 16 (2 * (b.items ++ [item]).length)
    rw [hgrown, hitems]
    split
    next hfull =>
      have := hnew hfull
      omega
    next => omega

/-- The two results on one append together. -/
theorem bufferAppend_spec (itemSize : ℕ) (hpos : 0 < itemSize) (hsize : itemSize ≤ 32)
    {b : Buffer α} (hb : b.Ok hash) (item : α) (allocs : AppendAllocs) :
    ∃ done b', bufferAppend hash itemSize b item allocs = some (done, b') ∧ b'.Ok hash ∧
      (b'.items = if done then b.items ++ [item] else b.items) ∧
      (allocs = ⟨true, true⟩ → b.Sized → b.items.length < 2 ^ 57 → done = true ∧ b'.Sized) := by
  obtain ⟨done, b', hrun, hok, hitems⟩ := bufferAppend_ok itemSize hb item allocs
  refine ⟨done, b', hrun, hok, hitems, ?_⟩
  rintro rfl hs hlen
  obtain ⟨b'', hdone, hs''⟩ := bufferAppend_done hpos hsize hb hs item hlen
  obtain ⟨rfl, rfl⟩ := Prod.mk.inj (Option.some.inj (hrun.symm.trans hdone))
  exact ⟨rfl, hs''⟩

end Append

section Lookup
variable {h : Hashes}

theorem winnersFind_spec {b : Buffer WinnerEntry} (hb : b.Ok fun e => h.commandBytes e.command)
    (command : CStr) :
    (winnersFind h b command = some none ∧ ∀ e ∈ b.items, e.command ≠ command) ∨
      ∃ e ∈ b.items, winnersFind h b command = some (some e) ∧ e.command = command := by
  rcases hb with ⟨hnil, hitems⟩ | hI
  · exact .inl ⟨by simp [winnersFind, Buffer.indexCap, hnil], by simp [hitems]⟩
  · have hpos := hI.length_pos
    have hmatch (i : ℕ) (e : WinnerEntry) (he : b.items[i]? = some e) :
        ((b.items[i]?).any fun e => cmpUnsignedBytes e.command command = 0) = true ↔
          e.command = command := by
      simp [he, cmpUnsignedBytes_eq_zero]
    have hcap : ¬ b.indexCap = 0 := by simp only [Buffer.indexCap]; omega
    have hspec := hI.find_spec
      (fun i => (b.items[i]?).any fun e => cmpUnsignedBytes e.command command = 0)
      (h.commandBytes command) (by
        intro i hi hm
        have he := List.getElem?_eq_getElem hi
        rw [Buffer.hashAt, he, Option.elim_some, (hmatch i _ he).mp hm])
    rcases hspec with ⟨hf, hnone⟩ | ⟨i, hi, hf, hm⟩
    · refine .inl ⟨by rw [winnersFind, if_neg hcap]; simp only [hf]; rfl, ?_⟩
      intro e hmem hec
      obtain ⟨i, hi, he⟩ := List.getElem_of_mem hmem
      have he' : b.items[i]? = some e := by rw [List.getElem?_eq_getElem hi, he]
      have hfalse := hnone i hi
      rw [(hmatch i e he').mpr hec] at hfalse
      contradiction
    · have he := List.getElem?_eq_getElem hi
      refine .inr ⟨b.items[i], List.getElem_mem hi, ?_, (hmatch i _ he).mp hm⟩
      rw [winnersFind, if_neg hcap]
      simp only [hf, Option.map_some, Option.bind_some, he]

theorem shadowTupleRecorded_spec {b : Buffer ShadowRecord}
    (hb : b.Ok fun r => h.commandShadowPair r.command r.shadow) (command winner shadow : CStr) :
    ∃ found, shadowTupleRecorded h b command winner shadow = some found ∧
      (found = true ↔
        ∃ r ∈ b.items, r.command = command ∧ r.shadow = shadow ∧ r.winner = winner) := by
  rcases hb with ⟨hnil, hitems⟩ | hI
  · exact ⟨false, by simp [shadowTupleRecorded, Buffer.indexCap, hnil], by simp [hitems]⟩
  · have hpos := hI.length_pos
    have hmatch (i : ℕ) (r : ShadowRecord) (hr : b.items[i]? = some r) :
        ((b.items[i]?).any fun r => cmpUnsignedBytes r.command command = 0 &&
            cmpUnsignedBytes r.shadow shadow = 0 && cmpUnsignedBytes r.winner winner = 0) = true ↔
          r.command = command ∧ r.shadow = shadow ∧ r.winner = winner := by
      simp [hr, cmpUnsignedBytes_eq_zero, and_assoc]
    have hcap : ¬ b.indexCap = 0 := by simp only [Buffer.indexCap]; omega
    have hspec := hI.find_spec
      (fun i => (b.items[i]?).any fun r => cmpUnsignedBytes r.command command = 0 &&
        cmpUnsignedBytes r.shadow shadow = 0 && cmpUnsignedBytes r.winner winner = 0)
      (h.commandShadowPair command shadow) (by
        intro i hi hm
        have hr := List.getElem?_eq_getElem hi
        obtain ⟨hc, hs, -⟩ := (hmatch i _ hr).mp hm
        rw [Buffer.hashAt, hr, Option.elim_some, hc, hs])
    rcases hspec with ⟨hf, hnone⟩ | ⟨i, hi, hf, hm⟩
    · refine ⟨false, by rw [shadowTupleRecorded, if_neg hcap]; simp only [hf]; rfl, by simp, ?_⟩
      rintro ⟨r, hmem, hr⟩
      obtain ⟨i, hi, he⟩ := List.getElem_of_mem hmem
      have he' : b.items[i]? = some r := by rw [List.getElem?_eq_getElem hi, he]
      have hfalse := hnone i hi
      rw [(hmatch i r he').mpr hr] at hfalse
      contradiction
    · refine ⟨true, by rw [shadowTupleRecorded, if_neg hcap]; simp only [hf]; rfl, ?_⟩
      simp only [true_iff]
      exact ⟨b.items[i], List.getElem_mem hi, (hmatch i _ (List.getElem?_eq_getElem hi)).mp hm⟩

end Lookup

end Pathaudit
