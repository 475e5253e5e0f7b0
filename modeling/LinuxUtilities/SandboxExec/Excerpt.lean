import LinuxUtilities.Foundation.CodePoints

/-! `bounded_process_output`: the excerpt of a worker's output that goes into its record. -/
namespace SandboxExec
open CodePoints

def processOutputExcerptHeadBytes : ℤ := 4000

def processOutputExcerptTailBytes : ℤ := 4000

/-- The reference to the full log; no path and an empty one leave it out. -/
def logRef (artifactLogPath : Option Text) : Text :=
  match artifactLogPath with
  | none | some [] => []
  | some path => lit " Full log preserved at: " ++ path

def markerTail (artifactLogPath : Option Text) : Text :=
  lit " bytes elided from this record." ++ logRef artifactLogPath ++ lit " ...]\n\n"

def marker (artifactLogPath : Option Text) (elidedCount : ℤ) : Text :=
  lit "\n\n[... " ++ groupedInt elidedCount ++ markerTail artifactLogPath

def boundedProcessOutput (text : Text) (artifactLogPath : Option Text)
    (headBytes tailBytes : ℤ) : Text :=
  if text.length ≤ headBytes + tailBytes then text
  else
    let head := sliceTo text headBytes
    let tail := sliceFrom text (-tailBytes)
    let elidedCount := text.length - (headBytes + tailBytes)
    head ++ marker artifactLogPath elidedCount ++ tail

/-- The text is cut around a marker that states what was dropped, in bytes. -/
def CutBy (path : Option Text) (head tail : ℕ) (text result : Text) : Prop :=
  ∃ first dropped last, text = first ++ dropped ++ last ∧
    utf8Size first ≤ head ∧ utf8Size last ≤ tail ∧
      result = first ++ marker path (utf8Size dropped) ++ last

/-- The excerpt's contract: a text within the bounds is kept, any other is cut. -/
def Accounted (path : Option Text) (head tail : ℕ) (text result : Text) : Prop :=
  (utf8Size text ≤ head + tail → result = text) ∧
    (head + tail < utf8Size text → CutBy path head tail text result)

/-- A text that is already an excerpt, of a marker as long as the count it states. -/
def IsOwnExcerpt (path : Option Text) (head tail : ℕ) (text : Text) : Prop :=
  ∃ first last, ∃ d : ℕ, text = first ++ marker path d ++ last ∧
    d = utf8Size (marker path d) ∧ utf8Size first ≤ head ∧ utf8Size last ≤ tail

section Marker
variable {path : Option Text}

/-- What stands before a position inside the first of two parts belongs to that part. -/
theorem mem_of_append_cons {α : Type*} {u v s t : List α} {a : α}
    (h : u ++ a :: v = s ++ t) (hlen : u.length < s.length) : a ∈ s := by
  rcases List.append_eq_append_iff.mp h with ⟨w, rfl, hw⟩ | ⟨w, rfl, -⟩
  · cases w with
    | nil => simp at hlen
    | cons b w =>
      obtain ⟨rfl, -⟩ := List.cons.inj hw
      simp
  · simp at hlen

theorem takeWhile_grouped (n : ℕ) (rest : Text) :
    (grouped n ++ markerTail path ++ rest).takeWhile (· ≠ 32) = grouped n := by
  have hkeep : ∀ c ∈ grouped n, decide (c ≠ 32) = true := by
    intro c hc
    rw [decide_eq_true_eq]
    rintro rfl
    rcases mem_grouped hc with heq | hdigit
    · exact absurd heq (by decide)
    · exact absurd hdigit (by decide)
  rw [List.append_assoc, List.takeWhile_append_of_pos hkeep]
  have hspace : ∃ more, markerTail path ++ rest = 32 :: more := ⟨_, rfl⟩
  obtain ⟨more, hmore⟩ := hspace
  simp [hmore]

/-- A marker holds no other marker, and states one count. -/
theorem marker_within {x y : Text} {d d' : ℕ} (hd : 0 < d) (hd' : 0 < d')
    (h : x ++ marker path d ++ y = marker path d') : x = [] ∧ y = [] ∧ d = d' := by
  have hsplit : ∀ n : ℕ, marker path n =
      10 :: 10 :: (lit "[... " ++ grouped n ++ markerTail path) := fun n => by
    simp only [marker, groupedInt_natCast]
    rfl
  rw [hsplit, hsplit] at h
  have hlen := congrArg List.length h
  simp only [List.length_append, List.length_cons] at hlen
  have hx : x = [] := by
    match x, h with
    | [], _ => rfl
    | [a], h =>
      have hthird : some (10 : CodePoint) = some 91 := congrArg (fun text => text[2]?) h
      exact absurd hthird (by decide)
    | a :: b :: x, h =>
      simp only [List.cons_append, List.cons.injEq, List.append_assoc] at h
      have hcut : x ++ 10 :: (10 :: (lit "[... " ++ (grouped d ++ (markerTail path ++ y)))) =
          lit "[... " ++ grouped d' ++ markerTail path := by
        rw [List.append_assoc]
        exact h.2.2
      have hmem : (10 : CodePoint) ∈ lit "[... " ++ grouped d' := by
        apply mem_of_append_cons hcut
        simp only [List.length_append, List.length_cons] at hlen ⊢
        omega
      rcases List.mem_append.mp hmem with hlit | hcount
      · exact absurd hlit (by decide)
      · rcases mem_grouped hcount with heq | hdigit
        · exact absurd heq (by decide)
        · exact absurd hdigit (by decide)
  subst hx
  simp only [List.nil_append, List.cons_append, List.cons.injEq, true_and, List.append_assoc,
    List.append_cancel_left_eq] at h
  have hcount : grouped d = grouped d' := by
    have hleft := @takeWhile_grouped path d y
    have hright := @takeWhile_grouped path d' []
    rw [List.append_assoc, h] at hleft
    rw [List.append_nil] at hright
    exact hleft.symm.trans hright
  refine ⟨rfl, ?_, grouped_injective hd hd' hcount⟩
  rw [hcount] at h
  simpa using h

/-- An excerpt whose parts reach at least as far as those of a cut is that cut. -/
theorem cut_unique {first last u v : Text} {d n : ℕ} (hd : 0 < d) (hn : 0 < n) (hu : first <+: u)
    (hv : last <:+ v) (h : u ++ marker path d ++ v = first ++ marker path n ++ last) :
    u = first ∧ v = last ∧ d = n := by
  obtain ⟨x, rfl⟩ := hu
  obtain ⟨y, rfl⟩ := hv
  have hback : x ++ marker path d ++ y ++ last = marker path n ++ last := by
    refine (List.append_right_inj first).mp ?_
    simpa only [List.append_assoc] using h
  have hmarker : x ++ marker path d ++ y = marker path n := (List.append_left_inj last).mp hback
  obtain ⟨rfl, rfl, rfl⟩ := marker_within hd hn hmarker
  simp

end Marker

section Excerpt
variable {text : Text} {path : Option Text} {head tail : ℕ}

theorem boundedProcessOutput_short (h : text.length ≤ head + tail) :
    boundedProcessOutput text path head tail = text := by
  have hle : (text.length : ℤ) ≤ head + tail := by omega
  rw [boundedProcessOutput, if_pos hle]

theorem boundedProcessOutput_long (h : head + tail < text.length) :
    boundedProcessOutput text path head tail = text.take head ++
      marker path (text.length - (head + tail) : ℕ) ++ sliceFrom text (-tail) := by
  have hlt : ¬ (text.length : ℤ) ≤ head + tail := by omega
  have helided : (text.length : ℤ) - (head + tail) = (text.length - (head + tail) : ℕ) := by omega
  rw [boundedProcessOutput, if_neg hlt, sliceTo_natCast, helided]

theorem cutBy_self_iff : CutBy path head tail text text ↔ IsOwnExcerpt path head tail text := by
  constructor
  · rintro ⟨first, dropped, last, htext, hfirst, hlast, hresult⟩
    have hdropped : dropped = marker path (utf8Size dropped) := by
      have hboth := htext.symm.trans hresult
      simpa using hboth
    exact ⟨first, last, _, hresult, congrArg utf8Size hdropped, hfirst, hlast⟩
  · rintro ⟨first, last, d, htext, hd, hfirst, hlast⟩
    exact ⟨first, _, last, htext, hfirst, hlast, by rw [← hd, ← htext]⟩

/-- What a cut keeps of a text's end is within what as many code points keep. -/
theorem suffix_sliceFrom {last : Text} (hlast : last <:+ text) (hlen : last.length ≤ tail) :
    last <:+ sliceFrom text (-tail) := by
  rcases Nat.eq_zero_or_pos tail with rfl | htail
  · rw [sliceFrom_neg_zero]
    exact hlast
  · rw [sliceFrom_neg htail]
    refine List.suffix_of_suffix_length_le hlast (List.drop_suffix _ text) ?_
    have hle : last.length ≤ text.length := hlast.length_le
    simp only [List.length_drop]
    omega

theorem take_append_drop_last (h : head + tail < text.length) :
    text = text.take head ++ (text.drop head).take (text.length - (head + tail)) ++
      text.drop (text.length - tail) := by
  have hdrop : text.drop (text.length - tail) =
      (text.drop head).drop (text.length - (head + tail)) := by
    rw [List.drop_drop]
    congr 1
    omega
  rw [hdrop, List.append_assoc, List.take_append_drop, List.take_append_drop]

/-- A longer text is cut as it must be exactly when its bytes are its code points, and some of
its end is to be kept. -/
theorem cutBy_long_iff (h : head + tail < text.length) :
    CutBy path head tail text (boundedProcessOutput text path head tail) ↔
      0 < tail ∧ Ascii text := by
  rw [boundedProcessOutput_long h]
  constructor
  · rintro ⟨first, dropped, last, htext, hfirst, hlast, hresult⟩
    have hsize : utf8Size text = utf8Size first + utf8Size dropped + utf8Size last := by
      rw [htext, utf8Size_append, utf8Size_append]
    have hle : text.length ≤ utf8Size text := length_le_utf8Size text
    have hhead : first <+: text.take head := by
      rw [List.prefix_take_iff]
      exact ⟨⟨dropped ++ last, by rw [htext, List.append_assoc]⟩,
        (length_le_utf8Size first).trans hfirst⟩
    have htail : last <:+ sliceFrom text (-tail) :=
      suffix_sliceFrom ⟨first ++ dropped, htext.symm⟩ ((length_le_utf8Size last).trans hlast)
    obtain ⟨-, hslice, hcount⟩ := cut_unique (by omega) (by omega) hhead htail hresult
    constructor
    · by_contra hzero
      obtain rfl : tail = 0 := by omega
      rw [sliceFrom_neg_zero] at hslice
      rw [← hslice] at hlast
      omega
    · refine utf8Size_eq_length_iff.mp ?_
      omega
  · rintro ⟨htail, hascii⟩
    have htext := take_append_drop_last h
    have hparts := hascii
    rw [htext, ascii_append, ascii_append] at hparts
    obtain ⟨⟨hfirst, hmiddle⟩, hlast⟩ := hparts
    rw [sliceFrom_neg htail]
    refine ⟨_, _, _, htext, ?_, ?_, ?_⟩
    · rw [utf8Size_eq_length_iff.mpr hfirst]
      exact List.length_take_le head text
    · rw [utf8Size_eq_length_iff.mpr hlast]
      simp only [List.length_drop]
      omega
    · have hcount : utf8Size ((text.drop head).take (text.length - (head + tail))) =
          text.length - (head + tail) := by
        rw [utf8Size_eq_length_iff.mpr hmiddle]
        simp only [List.length_take, List.length_drop]
        omega
      rw [hcount]

/-- The excerpt keeps its contract on the texts that are within the bounds in bytes, on the ASCII
texts where some of the end is to be kept, and on a text within the bounds only in code points
when it is itself an excerpt of the kind that was asked for. -/
theorem boundedProcessOutput_accounted_iff (text : Text) (path : Option Text) (head tail : ℕ) :
    Accounted path head tail text (boundedProcessOutput text path head tail) ↔
      utf8Size text ≤ head + tail ∨ (0 < tail ∧ Ascii text) ∨
        (text.length ≤ head + tail ∧ IsOwnExcerpt path head tail text) := by
  have hle : text.length ≤ utf8Size text := length_le_utf8Size text
  rcases Nat.lt_or_ge (head + tail) text.length with hlong | hshort
  · have hcut := @cutBy_long_iff text path head tail hlong
    have hbytes : head + tail < utf8Size text := by omega
    have hkept : ¬ utf8Size text ≤ head + tail := by omega
    have hpoints : ¬ text.length ≤ head + tail := by omega
    simp only [Accounted, hcut, hbytes, hkept, hpoints, false_imp_iff, true_imp_iff, true_and,
      false_and, or_false, false_or]
  · rw [boundedProcessOutput_short hshort, Accounted, cutBy_self_iff]
    rcases Nat.lt_or_ge (head + tail) (utf8Size text) with hbytes | hbytes
    · have hkept : ¬ utf8Size text ≤ head + tail := by omega
      have hascii : ¬ Ascii text := fun hascii => by
        rw [utf8Size_eq_length_iff.mpr hascii] at hbytes
        omega
      simp [hbytes, hkept, hascii, hshort]
    · have hlt : ¬ head + tail < utf8Size text := by omega
      simp [hbytes, hlt]

/-- Two accented letters within the bounds as code points are four bytes, and are kept whole. -/
theorem boundedProcessOutput_keeps_letters :
    ¬ Accounted none 1 1 [0xE9, 0xE9] (boundedProcessOutput [0xE9, 0xE9] none 1 1) := by
  have hself : boundedProcessOutput [0xE9, 0xE9] none 1 1 = [0xE9, 0xE9] := by decide
  rw [hself]
  rintro ⟨-, hcut⟩
  obtain ⟨first, dropped, last, -, -, -, hresult⟩ := hcut (by decide)
  have hopening : (lit "\n\n[... ").length = 7 := by decide
  have hlen := congrArg List.length hresult
  simp only [marker, List.length_append, hopening, List.length_cons, List.length_nil] at hlen
  omega

end Excerpt

end SandboxExec
