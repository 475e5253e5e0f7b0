import LinuxUtilities.Foundation.MapDifference

/-! Differences of maps as patches: applying, undoing and composing them. -/
namespace MapDifference
variable {κ ν : Type*}

/-- A set of pairs with one value for each key. -/
def Functional (m : Set (κ × ν)) : Prop := ∀ k v w, (k, v) ∈ m → (k, w) ∈ m → v = w

namespace Delta

/-- The same change backwards. -/
def flip : Delta κ ν → Delta κ ν
  | removed k v => added k v
  | added k v => removed k v
  | changed k v w => changed k w v

@[simp] theorem flip_flip (d : Delta κ ν) : d.flip.flip = d := by
  cases d with
  | removed k v => rfl
  | added k v => rfl
  | changed k v w => rfl

@[simp] theorem key_flip (d : Delta κ ν) : d.flip.key = d.key := by
  cases d with
  | removed k v => rfl
  | added k v => rfl
  | changed k v w => rfl

theorem holds_flip {a b : Set (κ × ν)} {d : Delta κ ν} : d.flip.Holds b a ↔ d.Holds a b := by
  cases d with
  | removed k v => exact Iff.rfl
  | added k v => exact Iff.rfl
  | changed k v w => exact ⟨fun h => ⟨h.2.1, h.1, h.2.2.symm⟩, fun h => ⟨h.2.1, h.1, h.2.2.symm⟩⟩

/-- The value before the change. -/
def before : Delta κ ν → Option ν
  | removed _ v => some v
  | added _ _ => none
  | changed _ v _ => some v

/-- The value after the change. -/
def after : Delta κ ν → Option ν
  | removed _ _ => none
  | added _ v => some v
  | changed _ _ w => some w

theorem Holds.before_iff {a b : Set (κ × ν)} {d : Delta κ ν} (h : d.Holds a b)
    (ha : Functional a) (v : ν) : (d.key, v) ∈ a ↔ d.before = some v := by
  cases d with
  | removed k u => exact ⟨fun hv => congrArg some (ha k u v h.1 hv), fun hv => by
      rw [← Option.some.inj hv]
      exact h.1⟩
  | added k u => exact ⟨fun hv => absurd hv (h.2 v), fun hv => by contradiction⟩
  | changed k u w => exact ⟨fun hv => congrArg some (ha k u v h.1 hv), fun hv => by
      rw [← Option.some.inj hv]
      exact h.1⟩

theorem Holds.after_iff {a b : Set (κ × ν)} {d : Delta κ ν} (h : d.Holds a b)
    (hb : Functional b) (v : ν) : (d.key, v) ∈ b ↔ d.after = some v := by
  have hflip := (holds_flip.mpr h).before_iff hb v
  rw [key_flip] at hflip
  rw [hflip]
  cases d with
  | removed k u => exact Iff.rfl
  | added k u => exact Iff.rfl
  | changed k u w => exact Iff.rfl

/-- Two changes at one key, one after the other. -/
def andThen [DecidableEq ν] (d e : Delta κ ν) : List (Delta κ ν) :=
  deltaAt d.key d.before e.after

theorem key_of_mem_andThen [DecidableEq ν] {d e x : Delta κ ν} (h : x ∈ d.andThen e) :
    x.key = d.key :=
  key_of_mem_deltaAt h

theorem not_holds_self {a : Set (κ × ν)} (ha : Functional a) (d : Delta κ ν) : ¬ d.Holds a a := by
  intro h
  cases d with
  | removed k v => exact h.2 v h.1
  | added k v => exact h.2 v h.1
  | changed k v w => exact h.2.2 (ha k v w h.1 h.2.1)

end Delta

/-- A map with the changes made in it. -/
def patched (ds : List (Delta κ ν)) (m : Set (κ × ν)) : Set (κ × ν) :=
  {p | (∃ d ∈ ds, d.key = p.1 ∧ d.after = some p.2) ∨ p ∈ m ∧ ∀ d ∈ ds, d.key ≠ p.1}

theorem mem_patched {ds : List (Delta κ ν)} {m : Set (κ × ν)} {p : κ × ν} :
    p ∈ patched ds m ↔
      (∃ d ∈ ds, d.key = p.1 ∧ d.after = some p.2) ∨ p ∈ m ∧ ∀ d ∈ ds, d.key ≠ p.1 := Iff.rfl

variable [LinearOrder κ]

namespace IsDifference
variable {a b c : Set (κ × ν)} {ds es : List (Delta κ ν)}

theorem flip (h : IsDifference a b ds) : IsDifference b a (ds.map Delta.flip) where
  sorted := by
    rw [List.pairwise_map]
    exact h.sorted.imp fun {d e} hlt => by rwa [Delta.key_flip, Delta.key_flip]
  mem_iff := by
    intro d
    rw [List.mem_map]
    constructor
    · rintro ⟨e, he, rfl⟩
      exact Delta.holds_flip.mpr ((h.mem_iff e).mp he)
    · intro hd
      refine ⟨d.flip, (h.mem_iff d.flip).mpr ?_, d.flip_flip⟩
      exact Delta.holds_flip.mpr hd

/-- Keys without a difference have the same values. -/
theorem same_of_key_ne (h : IsDifference a b ds) {k : κ} (hk : ∀ d ∈ ds, d.key ≠ k) (v : ν) :
    (k, v) ∈ a ↔ (k, v) ∈ b := by
  have hnot (d : Delta κ ν) (hd : d.key = k) : ¬ d.Holds a b :=
    fun hh => hk d ((h.mem_iff d).mpr hh) hd
  constructor
  · intro hv
    by_contra hb
    by_cases hw : ∃ w, (k, w) ∈ b
    · obtain ⟨w, hw⟩ := hw
      exact hnot (.changed k v w) rfl ⟨hv, hw, by rintro rfl; exact hb hw⟩
    · exact hnot (.removed k v) rfl ⟨hv, fun w hmem => hw ⟨w, hmem⟩⟩
  · intro hv
    by_contra ha
    by_cases hw : ∃ w, (k, w) ∈ a
    · obtain ⟨w, hw⟩ := hw
      exact hnot (.changed k w v) rfl ⟨hw, hv, by rintro rfl; exact ha hw⟩
    · exact hnot (.added k v) rfl ⟨hv, fun w hmem => hw ⟨w, hmem⟩⟩

/-- The difference of two maps takes the first to the second. -/
theorem patched_eq (h : IsDifference a b ds) (hb : Functional b) : patched ds a = b := by
  ext ⟨k, v⟩
  rw [mem_patched]
  by_cases hk : ∃ d ∈ ds, d.key = k
  · obtain ⟨d, hd, rfl⟩ := hk
    have hafter := ((h.mem_iff d).mp hd).after_iff hb v
    rw [hafter]
    constructor
    · rintro (⟨e, he, hkey, heq⟩ | ⟨-, hno⟩)
      · have hv := (((h.mem_iff e).mp he).after_iff hb v).mpr heq
        rw [show e.key = d.key from hkey] at hv
        exact hafter.mp hv
      · exact absurd rfl (hno d hd)
    · intro heq
      exact .inl ⟨d, hd, rfl, heq⟩
  · have hno : ∀ d ∈ ds, d.key ≠ k := fun d hd hkey => hk ⟨d, hd, hkey⟩
    rw [h.same_of_key_ne hno]
    constructor
    · rintro (⟨d, hd, hkey, -⟩ | ⟨hv, -⟩)
      · exact absurd hkey (hno d hd)
      · exact hv
    · exact fun hv => .inr ⟨hv, hno⟩

/-- Two maps with the same difference from a third are equal. -/
theorem after_unique (h : IsDifference a b ds) (h' : IsDifference a c ds) (hb : Functional b)
    (hc : Functional c) : b = c := by
  rw [← h.patched_eq hb, ← h'.patched_eq hc]

theorem before_unique (h : IsDifference a c ds) (h' : IsDifference b c ds) (ha : Functional a)
    (hb : Functional b) : a = b :=
  h.flip.after_unique h'.flip ha hb

theorem nil_iff (h : IsDifference a b ds) (ha : Functional a) (hb : Functional b) :
    ds = [] ↔ a = b := by
  constructor
  · rintro rfl
    have hpatched := h.patched_eq hb
    rw [← hpatched]
    ext p
    simp [patched]
  · rintro rfl
    refine List.eq_nil_iff_forall_not_mem.mpr fun d hd => ?_
    exact d.not_holds_self ha ((h.mem_iff d).mp hd)

end IsDifference

/-- Strictly sorted by key. -/
def SortedDeltas (ds : List (Delta κ ν)) : Prop := ds.Pairwise fun d e => d.key < e.key

theorem SortedDeltas.lt_of_mem {d e : Delta κ ν} {ds : List (Delta κ ν)}
    (h : SortedDeltas (d :: ds)) (he : e ∈ ds) : d.key < e.key :=
  List.rel_of_pairwise_cons h he

theorem SortedDeltas.tail {d : Delta κ ν} {ds : List (Delta κ ν)} (h : SortedDeltas (d :: ds)) :
    SortedDeltas ds :=
  List.Pairwise.of_cons h

theorem SortedDeltas.eq_of_key {ds : List (Delta κ ν)} (h : SortedDeltas ds) {d e : Delta κ ν}
    (hd : d ∈ ds) (he : e ∈ ds) (hkey : d.key = e.key) : d = e := by
  have hnodup : (ds.map Delta.key).Nodup := List.pairwise_map.mpr (h.imp ne_of_lt)
  exact List.inj_on_of_nodup_map hnodup hd he hkey

section Compose
variable [DecidableEq ν]

/-- The changes of two differences in key order, those at a common key as one. -/
def compose : List (Delta κ ν) → List (Delta κ ν) → List (Delta κ ν)
  | [], es => es
  | d :: ds, [] => d :: ds
  | d :: ds, e :: es =>
    if d.key = e.key then d.andThen e ++ compose ds es
    else if d.key < e.key then d :: compose ds (e :: es)
    else e :: compose (d :: ds) es
termination_by ds es => ds.length + es.length

/-- Where the keys of a composition come from. -/
theorem key_of_mem_compose {ds es : List (Delta κ ν)} {x : Delta κ ν} (h : x ∈ compose ds es) :
    (∃ d ∈ ds, d.key = x.key) ∨ ∃ e ∈ es, e.key = x.key := by
  fun_induction compose ds es with
  | case1 es => exact .inr ⟨x, h, rfl⟩
  | case2 d ds => exact .inl ⟨x, h, rfl⟩
  | case3 d ds e es hkey ih =>
    obtain hx | hx := List.mem_append.mp h
    · exact .inl ⟨d, List.mem_cons_self, (Delta.key_of_mem_andThen hx).symm⟩
    · obtain ⟨y, hy, hyx⟩ | ⟨y, hy, hyx⟩ := ih hx
      · exact .inl ⟨y, List.mem_cons_of_mem _ hy, hyx⟩
      · exact .inr ⟨y, List.mem_cons_of_mem _ hy, hyx⟩
  | case4 d ds e es hkey hlt ih =>
    obtain rfl | hx := List.mem_cons.mp h
    · exact .inl ⟨x, List.mem_cons_self, rfl⟩
    · obtain ⟨y, hy, hyx⟩ | hy := ih hx
      · exact .inl ⟨y, List.mem_cons_of_mem _ hy, hyx⟩
      · exact .inr hy
  | case5 d ds e es hkey hlt ih =>
    obtain rfl | hx := List.mem_cons.mp h
    · exact .inr ⟨x, List.mem_cons_self, rfl⟩
    · obtain hy | ⟨y, hy, hyx⟩ := ih hx
      · exact .inl hy
      · exact .inr ⟨y, List.mem_cons_of_mem _ hy, hyx⟩

/-- All keys of a composition lie above what all keys of the two lists lie above. -/
theorem lt_key_of_mem_compose {ds es : List (Delta κ ν)} {k : κ} (hd : ∀ d ∈ ds, k < d.key)
    (he : ∀ e ∈ es, k < e.key) : ∀ x ∈ compose ds es, k < x.key := by
  intro x hx
  obtain ⟨d, hmem, heq⟩ | ⟨e, hmem, heq⟩ := key_of_mem_compose hx
  · rw [← heq]
    exact hd d hmem
  · rw [← heq]
    exact he e hmem

theorem compose_sorted {ds es : List (Delta κ ν)} (hds : SortedDeltas ds) (hes : SortedDeltas es) :
    SortedDeltas (compose ds es) := by
  have habove {d : Delta κ ν} {ds : List (Delta κ ν)} (h : SortedDeltas (d :: ds)) {k : κ}
      (hk : k < d.key) : ∀ x ∈ d :: ds, k < x.key := by
    intro x hx
    obtain rfl | hx := List.mem_cons.mp hx
    · exact hk
    · exact hk.trans (h.lt_of_mem hx)
  fun_induction compose ds es with
  | case1 es => exact hes
  | case2 d ds => exact hds
  | case3 d ds e es hkey ih =>
    refine List.pairwise_append.mpr ⟨deltaAt_pairwise _ _ _ _, ih hds.tail hes.tail, ?_⟩
    intro x hx y hy
    rw [Delta.key_of_mem_andThen hx]
    exact lt_key_of_mem_compose (fun z hz => hds.lt_of_mem hz)
      (fun z hz => hkey ▸ hes.lt_of_mem hz) y hy
  | case4 d ds e es hkey hlt ih =>
    refine List.pairwise_cons.mpr ⟨fun x hx => ?_, ih hds.tail hes⟩
    exact lt_key_of_mem_compose (fun z hz => hds.lt_of_mem hz) (habove hes hlt) x hx
  | case5 d ds e es hkey hlt ih =>
    have hlt' : e.key < d.key := lt_of_le_of_ne (not_lt.mp hlt) (Ne.symm hkey)
    refine List.pairwise_cons.mpr ⟨fun x hx => ?_, ih hds hes.tail⟩
    exact lt_key_of_mem_compose (habove hds hlt') (fun z hz => hes.lt_of_mem hz) x hx

/-- A composition has the changes of either list at the keys of that list alone, and the two
changes together at the keys of both. -/
theorem mem_compose {ds es : List (Delta κ ν)} (hds : SortedDeltas ds) (hes : SortedDeltas es)
    {x : Delta κ ν} : x ∈ compose ds es ↔
      (x ∈ ds ∧ ∀ e ∈ es, e.key ≠ x.key) ∨ (x ∈ es ∧ ∀ d ∈ ds, d.key ≠ x.key) ∨
        ∃ d ∈ ds, ∃ e ∈ es, d.key = e.key ∧ x ∈ d.andThen e := by
  fun_induction compose ds es with
  | case1 es => simp
  | case2 d ds => simp
  | case3 d ds e es hkey ih =>
    have hd : ∀ y ∈ ds, d.key < y.key := fun y => hds.lt_of_mem
    have he : ∀ y ∈ es, d.key < y.key := fun y hy => hkey ▸ hes.lt_of_mem hy
    have hand : ∀ y, x ∈ d.andThen y → x.key = d.key := fun y => Delta.key_of_mem_andThen
    rw [List.mem_append, ih hds.tail hes.tail]
    grind
  | case4 d ds e es hkey hlt ih =>
    have hd : ∀ y ∈ ds, d.key < y.key := fun y => hds.lt_of_mem
    have he : ∀ y ∈ e :: es, d.key < y.key := by
      intro y hy
      obtain rfl | hy := List.mem_cons.mp hy
      · exact hlt
      · exact hlt.trans (hes.lt_of_mem hy)
    rw [List.mem_cons, ih hds.tail hes]
    grind
  | case5 d ds e es hkey hlt ih =>
    have hlt' : e.key < d.key := lt_of_le_of_ne (not_lt.mp hlt) (Ne.symm hkey)
    have he : ∀ y ∈ es, e.key < y.key := fun y => hes.lt_of_mem
    have hd : ∀ y ∈ d :: ds, e.key < y.key := by
      intro y hy
      obtain rfl | hy := List.mem_cons.mp hy
      · exact hlt'
      · exact hlt'.trans (hds.lt_of_mem hy)
    rw [List.mem_cons, ih hds hes.tail]
    grind

/-- The differences of a first and a second map and of the second and a third compose to the
difference of the first and the third, without the maps. -/
theorem IsDifference.compose {a b c : Set (κ × ν)} {ds es : List (Delta κ ν)}
    (h : IsDifference a b ds) (h' : IsDifference b c es) (ha : Functional a) (hb : Functional b)
    (hc : Functional c) : IsDifference a c (compose ds es) := by
  refine ⟨compose_sorted h.sorted h'.sorted, fun x => ?_⟩
  rw [mem_compose h.sorted h'.sorted]
  by_cases hd : ∃ d ∈ ds, d.key = x.key <;> by_cases he : ∃ e ∈ es, e.key = x.key
  · obtain ⟨d, hd, hdk⟩ := hd
    obtain ⟨e, he, hek⟩ := he
    have hds : SortedDeltas ds := h.sorted
    have hes : SortedDeltas es := h'.sorted
    have hbefore := ((h.mem_iff d).mp hd).before_iff ha
    have hafter := ((h'.mem_iff e).mp he).after_iff hc
    rw [hdk] at hbefore
    rw [hek] at hafter
    have hiff : x ∈ d.andThen e ↔ x.Holds a c := by
      rw [Delta.andThen, hdk]
      exact mem_deltaAt hbefore hafter rfl
    rw [← hiff]
    constructor
    · rintro (⟨-, hno⟩ | ⟨-, hno⟩ | ⟨d', hd', e', he', hkey, hx⟩)
      · exact absurd hek (hno e he)
      · exact absurd hdk (hno d hd)
      · have hxk := Delta.key_of_mem_andThen hx
        obtain rfl := hds.eq_of_key hd' hd (hxk.symm.trans hdk.symm)
        obtain rfl := hes.eq_of_key he' he (hkey.symm.trans (hdk.trans hek.symm))
        exact hx
    · exact fun hx => .inr (.inr ⟨d, hd, e, he, hdk.trans hek.symm, hx⟩)
  · have hno : ∀ e ∈ es, e.key ≠ x.key := fun e hmem hkey => he ⟨e, hmem, hkey⟩
    have hsame : x.Holds a c ↔ x.Holds a b :=
      Delta.holds_congr (fun _ => Iff.rfl) fun v => (h'.same_of_key_ne hno v).symm
    rw [hsame, ← h.mem_iff]
    constructor
    · rintro (⟨hx, -⟩ | ⟨hx, -⟩ | ⟨d, hmem, e, he', hkey, hx⟩)
      · exact hx
      · exact absurd rfl (hno x hx)
      · exact absurd (hkey.symm.trans (Delta.key_of_mem_andThen hx).symm) (hno e he')
    · exact fun hx => .inl ⟨hx, hno⟩
  · have hno : ∀ d ∈ ds, d.key ≠ x.key := fun d hmem hkey => hd ⟨d, hmem, hkey⟩
    have hsame : x.Holds a c ↔ x.Holds b c :=
      Delta.holds_congr (fun v => h.same_of_key_ne hno v) fun _ => Iff.rfl
    rw [hsame, ← h'.mem_iff]
    constructor
    · rintro (⟨hx, -⟩ | ⟨hx, -⟩ | ⟨d, hmem, e, he', hkey, hx⟩)
      · exact absurd rfl (hno x hx)
      · exact hx
      · exact absurd (Delta.key_of_mem_andThen hx).symm (hno d hmem)
    · exact fun hx => .inr (.inl ⟨hx, hno⟩)
  · have hnod : ∀ d ∈ ds, d.key ≠ x.key := fun d hmem hkey => hd ⟨d, hmem, hkey⟩
    have hnoe : ∀ e ∈ es, e.key ≠ x.key := fun e hmem hkey => he ⟨e, hmem, hkey⟩
    have hsame : x.Holds a c ↔ x.Holds b b :=
      Delta.holds_congr (fun v => h.same_of_key_ne hnod v)
        fun v => (h'.same_of_key_ne hnoe v).symm
    rw [hsame]
    refine iff_of_false ?_ (x.not_holds_self hb)
    rintro (⟨hx, -⟩ | ⟨hx, -⟩ | ⟨d, hmem, e, -, -, hx⟩)
    · exact hnod x hx rfl
    · exact hnoe x hx rfl
    · exact hnod d hmem (Delta.key_of_mem_andThen hx).symm

end Compose

section Indexed
variable {ι : Type*} [DecidableEq ν] {k : ι → κ} {b a : ι → Option ν} {is : List ι}

/-- The pairs that a table of keys and values holds. -/
def tabulate (k : ι → κ) (b : ι → Option ν) (is : List ι) : List (κ × ν) :=
  is.filterMap fun i => (b i).map fun v => (k i, v)

omit [LinearOrder κ] [DecidableEq ν] in
theorem mem_tabulate {p : κ × ν} :
    p ∈ tabulate k b is ↔ ∃ i ∈ is, k i = p.1 ∧ b i = some p.2 := by
  unfold tabulate
  rw [List.mem_filterMap]
  constructor
  · rintro ⟨i, hi, hp⟩
    obtain ⟨v, hv, rfl⟩ := Option.map_eq_some_iff.mp hp
    exact ⟨i, hi, rfl, hv⟩
  · rintro ⟨i, hi, hk, hv⟩
    exact ⟨i, hi, by rw [hv, Option.map_some, hk]⟩

/-- The difference of two tables with the same keys, in the order of the keys. -/
theorem isDifference_tabulate (hk : is.Pairwise fun i j => k i < k j) :
    IsDifference (pairs (tabulate k b is)) (pairs (tabulate k a is))
      (is.flatMap fun i => deltaAt (k i) (b i) (a i)) := by
  have hinj : ∀ i ∈ is, ∀ j ∈ is, k i = k j → i = j := by
    have hnodup : (is.map k).Nodup := List.pairwise_map.mpr (hk.imp ne_of_lt)
    exact fun i hi j hj => List.inj_on_of_nodup_map hnodup hi hj
  have hat (c : ι → Option ν) (i : ι) (hi : i ∈ is) (v : ν) :
      (k i, v) ∈ pairs (tabulate k c is) ↔ c i = some v := by
    rw [mem_pairs, mem_tabulate]
    constructor
    · rintro ⟨j, hj, hkey, hv⟩
      obtain rfl := hinj j hj i hi hkey
      exact hv
    · exact fun hv => ⟨i, hi, rfl, hv⟩
  constructor
  · rw [List.pairwise_flatMap]
    refine ⟨fun i _ => deltaAt_pairwise _ _ _ _, hk.imp fun {i j} hlt d hd e he => ?_⟩
    rw [key_of_mem_deltaAt hd, key_of_mem_deltaAt he]
    exact hlt
  · intro d
    rw [List.mem_flatMap]
    constructor
    · rintro ⟨i, hi, hd⟩
      exact (mem_deltaAt (hat b i hi) (hat a i hi) (key_of_mem_deltaAt hd)).mp hd
    · intro hd
      obtain ⟨v, hv⟩ := hd.key_mem
      obtain ⟨i, hi, hkey⟩ : ∃ i ∈ is, k i = d.key := by
        rcases hv with hv | hv
        · obtain ⟨i, hi, hkey, -⟩ := mem_tabulate.mp hv
          exact ⟨i, hi, hkey⟩
        · obtain ⟨i, hi, hkey, -⟩ := mem_tabulate.mp hv
          exact ⟨i, hi, hkey⟩
      exact ⟨i, hi, (mem_deltaAt (hat b i hi) (hat a i hi) hkey.symm).mpr hd⟩

end Indexed

end MapDifference
