import LinuxUtilities.Foundation.Lines
import LinuxUtilities.Treehash.Merkle

/-! `.gitignore` files: reading the rules of a directory, and matching a path with the
rules on the stack. -/
namespace Treehash
open CString

/-- The lines that `getline` returns, with their newlines. -/
def getlines (bytes : List UInt8) : List (List UInt8) :=
  (Lines.split 10 bytes).1.map (· ++ [10]) ++
    if (Lines.split 10 bytes).2 = [] then [] else [(Lines.split 10 bytes).2]

/-- The line after its trailing white space is cut off. -/
def trimLine (line : List UInt8) : List UInt8 :=
  line.rdropWhile fun b => b = 13 ∨ b = 10 ∨ b = 32 ∨ b = 9

/-- The negation flag and the pattern of a line that is neither blank nor a comment. The
pattern begins where the line does: leading white space stays in it. -/
def parsePattern (line : List UInt8) : Option (Bool × CStr) :=
  let text := CStr.ofBytes (trimLine line)
  let trimmed := text.bytes.dropWhile fun b => b = 32 ∨ b = 9
  if trimmed.head? = some 35 ∨ trimmed = [] then none
  else
    let negated : Bool := text.bytes.head? = some 33
    let pat := if negated then CStr.ofBytes text.bytes.tail else text
    if pat = ∅ then none else some (negated, pat)

/-- The rule of a pattern, unless a lone `/` leaves nothing of it. -/
def ruleOfPattern (dirRel : CStr) (depth : ℕ) (negated : Bool) (pat : CStr) : Option IgnoreRule :=
  let dirOnly : Bool := pat.bytes.getLast? = some 47
  let pat := if dirOnly then pat.bytes.dropLast else pat.bytes
  if pat = [] then none
  else
    let rooted : Bool := pat.head? = some 47
    some { pattern := .ofBytes (if rooted then pat.tail else pat)
           dirRel := dirRel
           depth := depth
           isNegated := negated
           isDirOnly := dirOnly
           isAnchored := rooted || 47 ∈ pat }

section Load
variable {W : Type} (sys : Sys W)

/-- The loop of `load_gitignore` over the lines; `false` is its `-1`. -/
def loadLines (dirRel : CStr) (depth : ℕ) : List (List UInt8) → Context W → Bool × Context W
  | [], c => (true, c)
  | line :: lines, c =>
    match parsePattern line with
    | none => loadLines dirRel depth lines c
    | some (negated, pat) =>
      let m := c.call sys.malloc
      if m.1 then
        match ruleOfPattern dirRel depth negated pat with
        | none => loadLines dirRel depth lines m.2
        | some rule =>
          match addIgnoreRule sys rule m.2 with
          | (true, c) => loadLines dirRel depth lines c
          | (false, c) => (false, c.fputs outOfMemory)
      else (false, m.2.fputs outOfMemory)

def ENOENT : Errno := 2

/-- `load_gitignore`. -/
def loadGitignore (gitignorePath relDir : CStr) (depth : ℕ) (c : Context W) : ℤ × Context W :=
  match c.call (sys.fopen gitignorePath) with
  | (.error err, c) =>
    if err = ENOENT then (0, c)
    else (2, c.fputs (printDiagErrno sys "treehash: cannot open '" gitignorePath err))
  | (.ok stream, c) =>
    match loadLines sys relDir depth (getlines stream.bytes) c with
    | (true, c) => (0, c)
    | (false, c) => (-1, c)

end Load

/-- The candidate relative to the directory of a rule, when it lies in it. -/
def relativeTo (dirRel candPath : CStr) : Option (List UInt8) :=
  if dirRel = ∅ then some candPath.bytes
  else if dirRel.bytes <+: candPath.bytes then
    match candPath.bytes.drop dirRel.length with
    | [] => some []
    | b :: rel => if b = 47 then some rel else none
  else none

/-- `match_rule`. -/
def matchRule (fnmatch : CStr → CStr → Bool → Bool) (r : IgnoreRule) (candPath : CStr)
    (candIsDir : Bool) : Bool :=
  if r.isDirOnly && !candIsDir then false
  else
    match relativeTo r.dirRel candPath with
    | none => false
    | some rel =>
      if rel = [] then false
      else if r.isAnchored then fnmatch r.pattern (.ofBytes rel) true
      else
        let base := rel.rtakeWhile (· ≠ 47)
        fnmatch r.pattern (.ofBytes base) false || fnmatch r.pattern (.ofBytes rel) true

/-- `is_path_ignored`. -/
def isPathIgnored (fnmatch : CStr → CStr → Bool → Bool) (rules : List IgnoreRule)
    (candPath : CStr) (candIsDir : Bool) : Bool :=
  rules.foldl (fun ignored r =>
    if matchRule fnmatch r candPath candIsDir then !r.isNegated else ignored) false

/-- The rules of a `.gitignore` file in a directory. -/
def gitignoreRules (dirRel : CStr) (depth : ℕ) (content : List UInt8) : List IgnoreRule :=
  (getlines content).filterMap fun line =>
    (parsePattern line).bind fun p => ruleOfPattern dirRel depth p.1 p.2

theorem ruleOfPattern_depth {dirRel pat : CStr} {depth : ℕ} {negated : Bool} {r : IgnoreRule}
    (h : ruleOfPattern dirRel depth negated pat = some r) : r.depth = depth := by
  unfold ruleOfPattern at h
  extract_lets dirOnly pat rooted at h
  split at h
  · contradiction
  · rw [← Option.some.inj h]

theorem ruleOfPattern_dirRel {dirRel pat : CStr} {depth : ℕ} {negated : Bool} {r : IgnoreRule}
    (h : ruleOfPattern dirRel depth negated pat = some r) : r.dirRel = dirRel := by
  unfold ruleOfPattern at h
  extract_lets dirOnly pat rooted at h
  split at h
  · contradiction
  · rw [← Option.some.inj h]

theorem dirRel_of_mem_gitignoreRules {dirRel : CStr} {depth : ℕ} {content : List UInt8}
    {r : IgnoreRule} (h : r ∈ gitignoreRules dirRel depth content) : r.dirRel = dirRel := by
  obtain ⟨line, -, hline⟩ := List.mem_filterMap.mp h
  obtain ⟨p, -, hrule⟩ := Option.bind_eq_some_iff.mp hline
  exact ruleOfPattern_dirRel hrule

theorem depth_of_mem_gitignoreRules {dirRel : CStr} {depth : ℕ} {content : List UInt8}
    {r : IgnoreRule} (h : r ∈ gitignoreRules dirRel depth content) : r.depth = depth := by
  obtain ⟨line, -, hline⟩ := List.mem_filterMap.mp h
  obtain ⟨p, -, hrule⟩ := Option.bind_eq_some_iff.mp hline
  exact ruleOfPattern_depth hrule

/-- Popping the rules of a depth gives back what lies below them. -/
theorem popRules_append {W : Type} {depth : ℕ} {c : Context W} {base added : List IgnoreRule}
    (h : c.rules.items = base ++ added) (hbase : ∀ r ∈ base, r.depth ≠ depth)
    (hadded : ∀ r ∈ added, r.depth = depth) : (popRules depth c).rules.items = base := by
  have hkeep : base.rdropWhile (fun r => r.depth = depth) = base := by
    rw [List.rdropWhile_eq_self_iff]
    intro hne
    simpa using hbase _ (List.getLast_mem hne)
  rw [popRules, h]
  clear h
  induction added using List.reverseRecOn with
  | nil => simpa using hkeep
  | append_singleton added r ih =>
    simp only at ih ⊢
    rw [← List.append_assoc, List.rdropWhile_concat_pos _ _ _ (by simpa using hadded r (by simp))]
    exact ih fun r hr => hadded r (List.mem_append_left _ hr)

/-- The context after calls that can only change the world and the rules. -/
structure OnlyRules {W : Type} (c c' : Context W) (added : List IgnoreRule) : Prop where
  rules : c'.rules.items = c.rules.items ++ added
  entries : c'.entries = c.entries
  ancestors : c'.ancestors = c.ancestors
  stdout : c'.stdout = c.stdout

section Granted
variable {W : Type} {sys : Sys W}

theorem reserve_granted (hm : ∀ w, (sys.malloc w).1 = true) {α : Type} (first : ℕ)
    (arr : GrowArray α) (c : Context W) : ∃ cap w, reserve sys first arr c =
      (some { arr with capacity := cap }, { c with world := w }) := by
  unfold reserve
  split
  · simp only [Context.call_fst, Context.call_snd, hm, ↓reduceIte]
    exact ⟨_, _, rfl⟩
  · exact ⟨arr.capacity, c.world, rfl⟩

theorem addIgnoreRule_granted (hm : ∀ w, (sys.malloc w).1 = true) (rule : IgnoreRule)
    (c : Context W) : ∃ c', addIgnoreRule sys rule c = (true, c') ∧ OnlyRules c c' [rule] := by
  obtain ⟨cap, w, hreserve⟩ := reserve_granted hm 32 c.rules c
  unfold addIgnoreRule
  simp only [hreserve, Context.call_fst, Context.call_snd, hm, ↓reduceIte]
  exact ⟨_, rfl, rfl, rfl, rfl, rfl⟩

/-- With memory the loop adds the rules of the lines in order. -/
theorem loadLines_granted (hm : ∀ w, (sys.malloc w).1 = true) (dirRel : CStr) (depth : ℕ)
    (lines : List (List UInt8)) (c : Context W) :
    ∃ c', loadLines sys dirRel depth lines c = (true, c') ∧
      OnlyRules c c' (lines.filterMap fun line =>
        (parsePattern line).bind fun p => ruleOfPattern dirRel depth p.1 p.2) := by
  induction lines generalizing c with
  | nil => exact ⟨c, rfl, by simp, rfl, rfl, rfl⟩
  | cons line lines ih =>
    unfold loadLines
    cases hp : parsePattern line with
    | none =>
      obtain ⟨c', heq, hrules⟩ := ih c
      exact ⟨c', heq, by simpa [hp] using hrules⟩
    | some p =>
      simp only [Context.call_fst, Context.call_snd, hm, ↓reduceIte]
      cases hr : ruleOfPattern dirRel depth p.1 p.2 with
      | none =>
        obtain ⟨c', heq, hrules⟩ := ih { c with world := (sys.malloc c.world).2 }
        refine ⟨c', heq, ?_, hrules.entries, hrules.ancestors, hrules.stdout⟩
        simpa [hp, hr] using hrules.rules
      | some rule =>
        obtain ⟨c₁, heq₁, hrules₁⟩ :=
          addIgnoreRule_granted hm rule { c with world := (sys.malloc c.world).2 }
        obtain ⟨c', heq, hrules⟩ := ih c₁
        simp only [heq₁]
        refine ⟨c', heq, ?_, hrules.entries.trans hrules₁.entries,
          hrules.ancestors.trans hrules₁.ancestors, hrules.stdout.trans hrules₁.stdout⟩
        rw [hrules.rules, hrules₁.rules]
        simp [hp, hr]

theorem loadGitignore_granted (hm : ∀ w, (sys.malloc w).1 = true) {path : CStr} (relDir : CStr)
    (depth : ℕ) {content : List UInt8} (hopen : ∀ w, (sys.fopen path w).1 = .ok ⟨content, false⟩)
    (c : Context W) : ∃ c', loadGitignore sys path relDir depth c = (0, c') ∧
      OnlyRules c c' (gitignoreRules relDir depth content) := by
  obtain ⟨c', heq, hrules⟩ := loadLines_granted hm relDir depth (getlines content)
    { c with world := (sys.fopen path c.world).2 }
  unfold loadGitignore Context.call
  simp only [hopen, heq]
  exact ⟨c', rfl, hrules.rules, hrules.entries, hrules.ancestors, hrules.stdout⟩

end Granted

end Treehash
