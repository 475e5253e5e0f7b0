import LinuxUtilities.Pathaudit.Record

/-! The plain-list account of a sequence of executable hits, and the proof that the
hashed tables hold exactly it. -/
namespace Pathaudit
open CString

/-- The realpath of the first hit of a command. -/
def winnerOf (hits : List Hit) (command : CStr) : Option CStr :=
  (hits.find? fun g => g.command = command).map Hit.path

def samePair (g hit : Hit) : Prop := g.command = hit.command ∧ g.path = hit.path

instance (g hit : Hit) : Decidable (samePair g hit) := by unfold samePair; infer_instance

/-- The winner that a hit becomes after earlier hits. -/
def winnerAfter (pre : List Hit) (hit : Hit) : Option WinnerEntry :=
  if winnerOf pre hit.command = none then some ⟨hit.command, hit.path⟩ else none

/-- The shadow record that a hit adds after earlier hits: the first occurrence of a
pair whose realpath is not the winner's. -/
def shadowAfter (pre : List Hit) (hit : Hit) : Option ShadowRecord :=
  (winnerOf pre hit.command).bind fun w =>
    if w ≠ hit.path ∧ ∀ g ∈ pre, ¬ samePair g hit then
      some ⟨hit.command, w, hit.path, hit.pathIndex⟩
    else none

/-- What each hit adds, in the order of the hits. -/
def collect {β : Type} (after : List Hit → Hit → Option β) (hits : List Hit) : List β :=
  (List.range hits.length).filterMap fun i => (hits[i]?).bind (after (hits.take i))

theorem collect_concat {β : Type} (after : List Hit → Hit → Option β) (hits : List Hit)
    (hit : Hit) :
    collect after (hits ++ [hit]) = collect after hits ++ (after hits hit).toList := by
  have hhead : (List.range hits.length).filterMap
      (fun i => ((hits ++ [hit])[i]?).bind (after ((hits ++ [hit]).take i))) =
      collect after hits := by
    apply List.filterMap_congr
    intro i hi
    have hi := List.mem_range.mp hi
    rw [List.getElem?_append_left hi, List.take_append_of_le_length hi.le]
  rw [collect, List.length_append, List.length_singleton, List.range_succ,
    List.filterMap_append, hhead]
  congr 1
  cases ha : after hits hit <;> simp [ha]

theorem length_collect_le {β : Type} (after : List Hit → Hit → Option β) (hits : List Hit) :
    (collect after hits).length ≤ hits.length :=
  (List.length_filterMap_le _ _).trans List.length_range.le

theorem mem_collect {β : Type} {after : List Hit → Hit → Option β} {hits : List Hit} {b : β} :
    b ∈ collect after hits ↔
      ∃ pre hit post, hits = pre ++ hit :: post ∧ after pre hit = some b := by
  simp only [collect, List.mem_filterMap, List.mem_range]
  constructor
  · rintro ⟨i, hi, hb⟩
    rw [List.getElem?_eq_getElem hi, Option.bind_some] at hb
    exact ⟨_, _, _, (List.take_append_drop i hits).symm.trans
      (by rw [List.drop_eq_getElem_cons hi]), hb⟩
  · rintro ⟨pre, hit, post, rfl, hb⟩
    exact ⟨pre.length, by simp, by simpa using hb⟩

theorem winnerOf_concat (hits : List Hit) (hit : Hit) (command : CStr) :
    winnerOf (hits ++ [hit]) command =
      (winnerOf hits command).or (if hit.command = command then some hit.path else none) := by
  simp only [winnerOf, List.find?_append, Option.map_or]
  by_cases hc : hit.command = command <;> simp [hc]

/-- Later hits do not change a winner. -/
theorem winnerOf_append {pre : List Hit} {command w : CStr} (h : winnerOf pre command = some w)
    (post : List Hit) : winnerOf (pre ++ post) command = some w := by
  simp only [winnerOf, List.find?_append, Option.map_or] at h ⊢
  rw [h, Option.some_or]

theorem winnerOf_eq_none {hits : List Hit} {command : CStr} :
    winnerOf hits command = none ↔ ∀ g ∈ hits, g.command ≠ command := by
  simp [winnerOf]

theorem winnerOf_some_of_mem {hits : List Hit} {g : Hit} (hg : g ∈ hits) :
    ∃ w, winnerOf hits g.command = some w := by
  rw [← Option.ne_none_iff_exists']
  intro hnone
  exact winnerOf_eq_none.mp hnone g hg rfl

/-- The winner entries are the winners. -/
theorem mem_winners {hits : List Hit} {e : WinnerEntry} :
    e ∈ collect winnerAfter hits ↔ winnerOf hits e.command = some e.path := by
  induction hits using List.reverseRecOn with
  | nil => simp [collect, winnerOf]
  | append_singleton hits hit ih =>
    rw [collect_concat, List.mem_append, ih, winnerOf_concat, winnerAfter]
    cases hw : winnerOf hits hit.command with
    | none =>
      by_cases hc : hit.command = e.command
      · rw [hc] at hw
        simp [hw, hc, WinnerEntry.ext_iff, eq_comm]
      · have hne : e ≠ ⟨hit.command, hit.path⟩ :=
          fun he => hc (congrArg WinnerEntry.command he).symm
        simp [hc, hne]
    | some w =>
      by_cases hc : hit.command = e.command
      · rw [hc] at hw
        simp [hw]
      · simp [hc]

theorem winners_nodup (hits : List Hit) :
    ((collect winnerAfter hits).map WinnerEntry.command).Nodup := by
  induction hits using List.reverseRecOn with
  | nil => simp [collect]
  | append_singleton hits hit ih =>
    rw [collect_concat, List.map_append, List.nodup_append]
    refine ⟨ih, by cases winnerAfter hits hit <;> simp, ?_⟩
    intro c hc d hd
    obtain ⟨e, he, rfl⟩ := List.mem_map.mp hc
    obtain ⟨f, hf, rfl⟩ := List.mem_map.mp hd
    rw [Option.mem_toList, winnerAfter] at hf
    split at hf
    next hnone =>
      obtain rfl := Option.some.inj hf
      intro hef
      change e.command = hit.command at hef
      rw [← hef, mem_winners.mp he] at hnone
      contradiction
    next => contradiction

theorem shadowAfter_eq_some {pre : List Hit} {hit : Hit} {r : ShadowRecord} :
    shadowAfter pre hit = some r ↔ ∃ w, winnerOf pre hit.command = some w ∧ w ≠ hit.path ∧
      (∀ g ∈ pre, ¬ samePair g hit) ∧ r = ⟨hit.command, w, hit.path, hit.pathIndex⟩ := by
  simp only [shadowAfter, Option.bind_eq_some_iff]
  constructor
  · rintro ⟨w, hw, hr⟩
    split at hr
    next hc => exact ⟨w, hw, hc.1, hc.2, (Option.some.inj hr).symm⟩
    next => contradiction
  · rintro ⟨w, hw, hne, hfirst, rfl⟩
    exact ⟨w, hw, by rw [if_pos ⟨hne, hfirst⟩]⟩

/-- The shadow records are the first occurrences of the pairs that lost, each with
the winner of its command. -/
theorem mem_shadows {hits : List Hit} {r : ShadowRecord} :
    r ∈ collect shadowAfter hits ↔ ∃ pre hit post, hits = pre ++ hit :: post ∧
      (∀ g ∈ pre, ¬ samePair g hit) ∧ winnerOf hits hit.command = some r.winner ∧
      r.winner ≠ hit.path ∧ r = ⟨hit.command, r.winner, hit.path, hit.pathIndex⟩ := by
  rw [mem_collect]
  constructor
  · rintro ⟨pre, hit, post, rfl, hr⟩
    obtain ⟨w, hw, hne, hfirst, rfl⟩ := shadowAfter_eq_some.mp hr
    exact ⟨pre, hit, post, rfl, hfirst, winnerOf_append hw _, hne, rfl⟩
  · rintro ⟨pre, hit, post, rfl, hfirst, hw, hne, hr⟩
    refine ⟨pre, hit, post, rfl, shadowAfter_eq_some.mpr ⟨r.winner, ?_, hne, hfirst, hr⟩⟩
    -- were the command new, this hit would be the winner itself
    cases hpre : winnerOf pre hit.command with
    | some w => rw [← hw, winnerOf_append hpre]
    | none =>
      have hself : winnerOf (pre ++ [hit]) hit.command = some hit.path := by
        rw [winnerOf_concat, hpre]
        simp
      have hall := winnerOf_append hself post
      rw [List.append_assoc, List.singleton_append, hw] at hall
      exact (hne (Option.some.inj hall)).elim

/-- A pair that lost once is on record. -/
theorem shadow_recorded_iff {hits : List Hit} {hit : Hit} {w : CStr}
    (hw : winnerOf hits hit.command = some w) (hne : w ≠ hit.path) :
    (∃ r ∈ collect shadowAfter hits,
        r.command = hit.command ∧ r.shadow = hit.path ∧ r.winner = w) ↔
      ∃ g ∈ hits, samePair g hit := by
  constructor
  · rintro ⟨r, hr, hc, hs, -⟩
    obtain ⟨pre, g, post, rfl, -, -, -, he⟩ := mem_shadows.mp hr
    refine ⟨g, by simp, ?_, ?_⟩
    · rw [← hc, he]
    · rw [← hs, he]
  · rintro ⟨g, hg, hpair⟩
    -- the first occurrence of the pair
    obtain ⟨g', hg', hfind⟩ : ∃ g', hits.find? (fun g => samePair g hit) = some g' ∧
        samePair g' hit := by
      cases hf : hits.find? fun g => samePair g hit with
      | none =>
        have := List.find?_eq_none.mp hf g hg
        simp [hpair] at this
      | some g' => exact ⟨g', rfl, by simpa using List.find?_some hf⟩
    obtain ⟨-, pre, post, rfl, hpre⟩ := List.find?_eq_some_iff_append.mp hg'
    refine ⟨⟨g'.command, w, g'.path, g'.pathIndex⟩, mem_shadows.mpr ?_, hfind.1, hfind.2, rfl⟩
    refine ⟨pre, g', post, rfl, fun g hg hs => ?_, ?_, ?_, rfl⟩
    · have := hpre g hg
      simp only [Bool.not_eq_true', decide_eq_false_iff_not] at this
      exact this ⟨hs.1.trans hfind.1, hs.2.trans hfind.2⟩
    · rw [hfind.1]
      exact hw
    · rw [hfind.2]
      exact hne

/-- No two records are about one pair. -/
theorem shadows_pairwise (hits : List Hit) :
    (collect shadowAfter hits).Pairwise fun r s =>
      ¬ (r.command = s.command ∧ r.shadow = s.shadow) := by
  induction hits using List.reverseRecOn with
  | nil => simp [collect]
  | append_singleton hits hit ih =>
    rw [collect_concat, List.pairwise_append]
    refine ⟨ih, by cases shadowAfter hits hit <;> simp, ?_⟩
    intro r hr s hs
    obtain ⟨w, -, -, hfirst, rfl⟩ := shadowAfter_eq_some.mp (by simpa using hs)
    rintro ⟨hc, hp⟩
    obtain ⟨pre, g, post, rfl, -, -, -, he⟩ := mem_shadows.mp hr
    refine hfirst g (by simp) ⟨?_, ?_⟩
    · exact (congrArg ShadowRecord.command he).symm.trans hc
    · exact (congrArg ShadowRecord.shadow he).symm.trans hp

/-- The tables hold the account of the hits so far, and their indexes cover it. -/
structure Tables.Holds (h : Hashes) (hits : List Hit) (t : Tables) : Prop where
  winners : t.winners.items = collect winnerAfter hits
  shadows : t.shadows.items = collect shadowAfter hits
  winnersOk : t.winners.Ok fun e => h.commandBytes e.command
  shadowsOk : t.shadows.Ok fun r => h.commandShadowPair r.command r.shadow

structure Tables.Sized (t : Tables) : Prop where
  winners : t.winners.Sized
  shadows : t.shadows.Sized

theorem Tables.empty_holds (h : Hashes) : Tables.empty.Holds h [] :=
  ⟨rfl, rfl, Buffer.empty_ok, Buffer.empty_ok⟩

theorem Tables.Holds.find {h : Hashes} {hits : List Hit} {t : Tables} (ht : t.Holds h hits)
    (command : CStr) :
    winnersFind h t.winners command =
      some ((winnerOf hits command).map fun w => ⟨command, w⟩) := by
  rcases winnersFind_spec ht.winnersOk command with ⟨hf, hnone⟩ | ⟨e, he, hf, rfl⟩
  · cases hw : winnerOf hits command with
    | none => exact hf
    | some w =>
      have hmem : (⟨command, w⟩ : WinnerEntry) ∈ t.winners.items := by
        rw [ht.winners]
        exact mem_winners.mpr hw
      exact (hnone _ hmem rfl).elim
  · rw [ht.winners] at he
    rw [hf, mem_winners.mp he]
    rfl

theorem done_of_status {done : Bool} (h : (if done = true then 0 else 2) = 0) : done = true := by
  cases done with
  | true => rfl
  | false => simp at h

/-- One hit: the call ends, unless an allocation failed the tables hold the account
of one more hit, and no allocation of an ordinary size fails by itself. -/
theorem recordExecutableHit_holds {h : Hashes} {hits : List Hit} {t : Tables}
    (ht : t.Holds h hits) (hit : Hit) (allocs : HitAllocs) :
    ∃ status t', recordExecutableHit h hit allocs t = some (status, t') ∧
      (status = 0 → t'.Holds h (hits ++ [hit])) ∧
      (allocs = .granted → t.Sized → hits.length < 2 ^ 57 → status = 0 ∧ t'.Sized) := by
  have hwlen : t.winners.items.length ≤ hits.length := by
    rw [ht.winners]
    exact length_collect_le _ _
  have hslen : t.shadows.items.length ≤ hits.length := by
    rw [ht.shadows]
    exact length_collect_le _ _
  have hwin : collect winnerAfter (hits ++ [hit]) =
      collect winnerAfter hits ++ (winnerAfter hits hit).toList := collect_concat _ _ _
  have hsha : collect shadowAfter (hits ++ [hit]) =
      collect shadowAfter hits ++ (shadowAfter hits hit).toList := collect_concat _ _ _
  unfold recordExecutableHit
  rw [ht.find]
  cases hw : winnerOf hits hit.command with
  | none =>
    have hw' : winnerAfter hits hit = some ⟨hit.command, hit.path⟩ := if_pos hw
    have hs' : shadowAfter hits hit = none := by rw [shadowAfter, hw]; rfl
    cases hcopy : allocs.commandCopy with
    | false => exact ⟨2, t, by simp, by simp, by rintro rfl; simp [HitAllocs.granted] at hcopy⟩
    | true =>
      obtain ⟨done, b, hb, hok, hitems, hsized⟩ := bufferAppend_spec 16 (by norm_num) (by norm_num)
        ht.winnersOk ⟨hit.command, hit.path⟩ allocs.append
      refine ⟨if done then 0 else 2, { t with winners := b }, by simp [winnersAppend, hb], ?_, ?_⟩
      · intro hdone
        obtain rfl := done_of_status hdone
        refine ⟨?_, ?_, hok, ht.shadowsOk⟩
        · rw [hwin, hw', ← ht.winners]
          exact hitems
        · rw [hsha, hs', Option.toList_none, List.append_nil]
          exact ht.shadows
      · rintro rfl hs hlen
        obtain ⟨rfl, hb'⟩ := hsized rfl hs.winners (by omega)
        exact ⟨rfl, hb', hs.shadows⟩
  | some w =>
    have hw' : winnerAfter hits hit = none := if_neg (by rw [hw]; simp)
    have hkeep : collect winnerAfter (hits ++ [hit]) = t.winners.items := by
      rw [hwin, hw', Option.toList_none, List.append_nil, ht.winners]
    by_cases hpath : w = hit.path
    · -- another hit on the winner itself
      have hs' : shadowAfter hits hit = none := by simp [shadowAfter, hw, hpath]
      refine ⟨0, t, by simp [hpath, cmpUnsignedBytes_eq_zero], fun _ => ?_, fun _ hs _ => ⟨rfl, hs⟩⟩
      refine ⟨hkeep.symm, ?_, ht.winnersOk, ht.shadowsOk⟩
      rw [hsha, hs', Option.toList_none, List.append_nil, ht.shadows]
    · obtain ⟨found, hfound, hiff⟩ :=
        shadowTupleRecorded_spec ht.shadowsOk hit.command w hit.path
      rw [ht.shadows, shadow_recorded_iff hw hpath] at hiff
      cases found with
      | true =>
        -- a repeated losing pair is suppressed
        have hs' : shadowAfter hits hit = none := by
          simpa [shadowAfter, hw, hpath] using hiff.mp rfl
        refine ⟨0, t, by simp [hpath, cmpUnsignedBytes_eq_zero, hfound], fun _ => ?_,
          fun _ hs _ => ⟨rfl, hs⟩⟩
        refine ⟨hkeep.symm, ?_, ht.winnersOk, ht.shadowsOk⟩
        rw [hsha, hs', Option.toList_none, List.append_nil, ht.shadows]
      | false =>
        have hnew : ∀ g ∈ hits, ¬ samePair g hit := by simpa using hiff
        have hs' : shadowAfter hits hit = some ⟨hit.command, w, hit.path, hit.pathIndex⟩ :=
          shadowAfter_eq_some.mpr ⟨w, hw, hpath, hnew, rfl⟩
        by_cases hcopies : allocs.commandCopy = true ∧ allocs.winnerCopy = true
        · obtain ⟨done, b, hb, hok, hitems, hsized⟩ := bufferAppend_spec 32 (by norm_num)
            (by norm_num) ht.shadowsOk ⟨hit.command, w, hit.path, hit.pathIndex⟩ allocs.append
          refine ⟨if done then 0 else 2, { t with shadows := b }, by
            simp [hpath, cmpUnsignedBytes_eq_zero, hfound, hcopies, shadowsAppend, hb], ?_, ?_⟩
          · intro hdone
            obtain rfl := done_of_status hdone
            refine ⟨hkeep.symm, ?_, ht.winnersOk, hok⟩
            rw [hsha, hs', ← ht.shadows]
            exact hitems
          · rintro rfl hs hlen
            obtain ⟨rfl, hb'⟩ := hsized rfl hs.shadows (by omega)
            exact ⟨rfl, hs.winners, hb'⟩
        · refine ⟨2, t, ?_, by simp, ?_⟩
          swap
          · rintro rfl
            simp [HitAllocs.granted] at hcopies
          have hor : allocs.commandCopy = false ∨ allocs.winnerCopy = false := by
            simpa only [not_and_or, Bool.not_eq_true] using hcopies
          simp [hpath, cmpUnsignedBytes_eq_zero, hfound, hor]

theorem recordHits_holds {h : Hashes} (calls : List (Hit × HitAllocs)) {hits : List Hit}
    {t : Tables} (ht : t.Holds h hits) :
    ∃ status t', recordHits h calls t = some (status, t') ∧
      (status = 0 → t'.Holds h (hits ++ calls.map Prod.fst)) ∧
      ((∀ c ∈ calls, c.2 = .granted) → t.Sized → hits.length + calls.length ≤ 2 ^ 57 →
        status = 0) := by
  induction calls generalizing hits t with
  | nil => exact ⟨0, t, rfl, fun _ => by simpa using ht, fun _ _ _ => rfl⟩
  | cons call rest ih =>
    obtain ⟨hit, allocs⟩ := call
    obtain ⟨status, t', hrec, hholds, hdone⟩ := recordExecutableHit_holds ht hit allocs
    simp only [recordHits, hrec, Option.bind_eq_bind, Option.bind_some, List.length_cons,
      List.forall_mem_cons]
    by_cases hs : status = 0
    · obtain ⟨status', t'', hrest, hholds', hdone'⟩ := ih (hholds hs)
      refine ⟨status', t'', by rw [if_pos hs]; exact hrest, fun h0 => ?_, ?_⟩
      · simpa using hholds' h0
      · rintro ⟨ha, hall⟩ hsized hlen
        apply hdone' hall (hdone ha hsized (by omega)).2
        simp only [List.length_append, List.length_singleton]
        omega
    · refine ⟨status, t', by rw [if_neg hs], fun h0 => (hs h0).elim, ?_⟩
      rintro ⟨ha, -⟩ hsized hlen
      exact (hdone ha hsized (by omega)).1

/-- Whatever the hashes, every sequence of calls ends. When no call reports an
allocation failure the tables are the exact account of the hits: each command finds
the realpath of its first hit, and the shadow records are one for each pair that
differs from its winner, with the PATH index of its first occurrence. The size guards
of the code fail no sequence of up to `2 ^ 57` hits that gets its memory. -/
theorem recordHits_exact (h : Hashes) (calls : List (Hit × HitAllocs)) :
    ∃ status t, recordHits h calls Tables.empty = some (status, t) ∧
      ((∀ c ∈ calls, c.2 = .granted) → calls.length ≤ 2 ^ 57 → status = 0) ∧ (status = 0 →
      (∀ command, winnersFind h t.winners command =
        some ((winnerOf (calls.map Prod.fst) command).map fun w => ⟨command, w⟩)) ∧
      (t.winners.items.map WinnerEntry.command).Nodup ∧
      (∀ e, e ∈ t.winners.items ↔ winnerOf (calls.map Prod.fst) e.command = some e.path) ∧
      (t.shadows.items.Pairwise fun r s => ¬ (r.command = s.command ∧ r.shadow = s.shadow)) ∧
      ∀ r, r ∈ t.shadows.items ↔ ∃ pre hit post, calls.map Prod.fst = pre ++ hit :: post ∧
        (∀ g ∈ pre, ¬ samePair g hit) ∧
        winnerOf (calls.map Prod.fst) hit.command = some r.winner ∧ r.winner ≠ hit.path ∧
        r = ⟨hit.command, r.winner, hit.path, hit.pathIndex⟩) := by
  obtain ⟨status, t, hrun, hholds, hdone⟩ := recordHits_holds calls (Tables.empty_holds h)
  refine ⟨status, t, hrun, fun hall hlen => ?_, fun h0 => ?_⟩
  · apply hdone hall ⟨Buffer.empty_sized, Buffer.empty_sized⟩
    simpa using hlen
  have ht := hholds h0
  rw [List.nil_append] at ht
  refine ⟨ht.find, ?_, ?_, ?_, ?_⟩
  · rw [ht.winners]
    exact winners_nodup _
  · rw [ht.winners]
    exact fun e => mem_winners
  · rw [ht.shadows]
    exact shadows_pairwise _
  · rw [ht.shadows]
    exact fun r => mem_shadows

end Pathaudit
