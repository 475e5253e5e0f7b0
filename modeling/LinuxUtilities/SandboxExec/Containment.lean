import LinuxUtilities.Foundation.MountTable
import LinuxUtilities.SandboxExec.Launch

/-! `build_host_sandbox_command`: what stands at each path for the inner command, and what of it
is the host's to write. -/
namespace SandboxExec
open CodePoints MountTable

section Paths

/-- A `PurePosixPath`: the slashes that it begins with, and its names. -/
structure PosixPath where
  slashes : Fin 3
  names : List Text
  proper : ∀ name ∈ names, name ≠ [] ∧ slash ∉ name ∧ name ≠ lit "."

namespace PosixPath

/-- `str(path)` -/
def str (path : PosixPath) : Text :=
  if path.slashes = 0 ∧ path.names = [] then lit "."
  else List.replicate path.slashes slash ++ [slash].intercalate path.names

/-- What `Path.resolve` returns: no links, and the names from the root directory on. -/
structure Resolved (path : PosixPath) : Prop where
  absolute : path.slashes = 1
  plain : lit ".." ∉ path.names

end PosixPath

/-- The names in the text of a path. -/
def components (text : Text) : List Text :=
  (text.splitOn slash).filter fun name => name ≠ [] ∧ name ≠ lit "."

theorem components_str {path : PosixPath} (h : path.slashes = 1) :
    components path.str = path.names := by
  have hkept : path.names.filter (fun name => name ≠ [] ∧ name ≠ lit ".") = path.names := by
    rw [List.filter_eq_self]
    intro name hname
    obtain ⟨hne, -, hdot⟩ := path.proper name hname
    simp [hne, hdot]
  have hnot : ¬ (path.slashes = 0 ∧ path.names = []) := by simp [h]
  rw [PosixPath.str, if_neg hnot, h]
  cases hnames : path.names with
  | nil => decide
  | cons name names =>
    have hstr : List.replicate ((1 : Fin 3) : ℕ) slash ++ [slash].intercalate (name :: names) =
        [slash].intercalate ([] :: name :: names) := rfl
    have hclear : ∀ l ∈ [] :: name :: names, slash ∉ l := by
      rw [List.forall_mem_cons]
      refine ⟨List.not_mem_nil, fun l hl => ?_⟩
      rw [← hnames] at hl
      exact (path.proper l hl).2.1
    rw [hnames] at hkept
    rw [hstr, components, List.splitOn_intercalate slash hclear (by simp), List.filter_cons_of_neg
      (by simp), hkept]

end Paths

/-- What the sandbox mounts anew. -/
inductive Fresh where
  | dev | proc | tmpfs
  deriving DecidableEq, Repr

def Fresh.option : Fresh → Text
  | dev => lit "--dev"
  | proc => lit "--proc"
  | tmpfs => lit "--tmpfs"

/-- What stands at a path in a sandbox: nothing, a path of the host, or a path of a fresh mount. -/
inductive Place where
  | nothing
  | host (path : List Text) (writable : Bool)
  | fresh (kind : Fresh) (path : List Text)
  deriving DecidableEq, Repr

section Command

def isolationFlags : List Text :=
  [lit "--unshare-pid", lit "--unshare-uts", lit "--unshare-ipc", lit "--die-with-parent",
    lit "--new-session"]

/-- The arguments that mount a path of the host at the same path. -/
def bindArguments (option : Text) (path : PosixPath) : List Text := [option, path.str, path.str]

def buildHostSandboxCommand (sandboxBinary : Text) (innerCommand : List Text)
    (workspace stepRunDir scratchDir runsRoot : PosixPath)
    (trustedReadonlyPaths extraWritable : Option (List PosixPath)) : List Text :=
  [sandboxBinary, lit "--unshare-pid", lit "--unshare-uts", lit "--unshare-ipc",
    lit "--die-with-parent", lit "--new-session", lit "--ro-bind", lit "/", lit "/",
    lit "--dev", lit "/dev", lit "--proc", lit "/proc", lit "--tmpfs", lit "/run",
    lit "--tmpfs", lit "/tmp",
    lit "--bind", workspace.str, workspace.str,
    lit "--bind", stepRunDir.str, stepRunDir.str,
    lit "--bind", scratchDir.str, scratchDir.str,
    lit "--bind", runsRoot.str, runsRoot.str] ++
  (trustedReadonlyPaths.getD []).flatMap (bindArguments (lit "--ro-bind")) ++
  (extraWritable.getD []).flatMap (bindArguments (lit "--bind")) ++
  [lit "--"] ++ innerCommand

end Command

section Bubblewrap

/-- What the arguments of `bwrap` have set up so far. -/
structure Sandbox where
  isolation : List Text
  view : View Text Place

def Sandbox.mounted (s : Sandbox) (m : Mount Text Place) : Sandbox :=
  { s with view := mount s.view m }

def bindMount (source target : PosixPath) (writable : Bool) : Mount Text Place where
  target := target.names
  content below := .host (source.names ++ below) writable

def freshMount (kind : Fresh) (target : PosixPath) : Mount Text Place where
  target := target.names
  content := .fresh kind

/-- What `bwrap` documents of the arguments that are used here, for resolved paths: they take
effect from left to right, and `--` ends them. -/
structure Bubblewrap where
  setUp : List Text → Sandbox → Option (Sandbox × List Text)
  flag : ∀ name ∈ isolationFlags, ∀ rest s,
    setUp (name :: rest) s = setUp rest { s with isolation := s.isolation ++ [name] }
  bind : ∀ source target : PosixPath, source.Resolved → target.Resolved → ∀ rest s,
    setUp (lit "--bind" :: source.str :: target.str :: rest) s =
      setUp rest (s.mounted (bindMount source target true))
  roBind : ∀ source target : PosixPath, source.Resolved → target.Resolved → ∀ rest s,
    setUp (lit "--ro-bind" :: source.str :: target.str :: rest) s =
      setUp rest (s.mounted (bindMount source target false))
  fresh : ∀ (kind : Fresh) (target : PosixPath), target.Resolved → ∀ rest s,
    setUp (kind.option :: target.str :: rest) s = setUp rest (s.mounted (freshMount kind target))
  command : ∀ rest s, setUp (lit "--" :: rest) s = some (s, rest)

/-- A reader of these arguments. -/
def readArguments : List Text → Sandbox → Option (Sandbox × List Text)
  | [], _ => none
  | arg :: rest, s =>
    if arg = lit "--" then some (s, rest)
    else if arg ∈ isolationFlags then
      readArguments rest { s with isolation := s.isolation ++ [arg] }
    else if arg = lit "--bind" ∨ arg = lit "--ro-bind" then
      match rest with
      | source :: target :: rest => readArguments rest (s.mounted ⟨components target, fun below =>
          .host (components source ++ below) (arg = lit "--bind")⟩)
      | _ => none
    else
      match [Fresh.dev, .proc, .tmpfs].find? fun kind => kind.option = arg, rest with
      | some kind, target :: rest =>
        readArguments rest (s.mounted ⟨components target, .fresh kind⟩)
      | _, _ => none

def documented : Bubblewrap where
  setUp := readArguments
  flag name hname rest s := by
    have hnot : name ≠ lit "--" := by
      rintro rfl
      exact absurd hname (by decide)
    conv_lhs => unfold readArguments
    rw [if_neg hnot, if_pos hname]
  bind source target hsource htarget rest s := by
    conv_lhs => unfold readArguments
    rw [if_neg (by decide), if_neg (by decide), if_pos (.inl rfl)]
    simp only [components_str hsource.absolute, components_str htarget.absolute]
    rfl
  roBind source target hsource htarget rest s := by
    conv_lhs => unfold readArguments
    rw [if_neg (by decide), if_neg (by decide), if_pos (.inr rfl)]
    simp only [components_str hsource.absolute, components_str htarget.absolute]
    rfl
  fresh kind target htarget rest s := by
    have hfind : [Fresh.dev, .proc, .tmpfs].find? (fun k => k.option = kind.option) =
        some kind := by
      cases kind <;> decide
    have hother : kind.option ≠ lit "--" ∧ kind.option ∉ isolationFlags ∧
        ¬ (kind.option = lit "--bind" ∨ kind.option = lit "--ro-bind") := by
      cases kind <;> decide
    conv_lhs => unfold readArguments
    rw [if_neg hother.1, if_neg hother.2.1, if_neg hother.2.2]
    simp only [hfind, components_str htarget.absolute]
    rfl
  command rest s := by
    conv_lhs => unfold readArguments
    rw [if_pos rfl]

end Bubblewrap

section Contained

/-- The path lies below one of some directories. -/
def Below (dirs : List PosixPath) (path : List Text) : Prop := ∃ dir ∈ dirs, dir.names <+: path

instance (dirs : List PosixPath) (path : List Text) : Decidable (Below dirs path) := by
  unfold Below
  infer_instance

/-- What is mounted anew at a name in the root directory. -/
def freshAt (name : Text) : Option Fresh :=
  if name = lit "dev" then some .dev
  else if name = lit "proc" then some .proc
  else if name = lit "run" ∨ name = lit "tmp" then some .tmpfs
  else none

/-- What stands where no directory was given. -/
def systemPlace : List Text → Place
  | [] => .host [] false
  | name :: below =>
    match freshAt name with
    | some kind => .fresh kind below
    | none => .host (name :: below) false

/-- What is meant to stand at a path: writable extras before trusted directories, these before the
directories of the step, and these before the system. -/
def placeIn (stepDirs trusted extra : List PosixPath) (path : List Text) : Place :=
  if Below extra path then .host path true
  else if Below trusted path then .host path false
  else if Below stepDirs path then .host path true
  else systemPlace path

def rootPath : PosixPath := ⟨1, [], by simp⟩

/-- A directory in the root directory. -/
def topPath (name : Text) (h : name ≠ [] ∧ slash ∉ name ∧ name ≠ lit ".") : PosixPath :=
  ⟨1, [name], by simpa using h⟩

def devPath : PosixPath := topPath (lit "dev") (by decide)
def procPath : PosixPath := topPath (lit "proc") (by decide)
def runPath : PosixPath := topPath (lit "run") (by decide)
def tmpPath : PosixPath := topPath (lit "tmp") (by decide)

/-- The mounts that do not depend on the directories given. -/
def systemMounts : List (Mount Text Place) :=
  [bindMount rootPath rootPath false, freshMount .dev devPath, freshMount .proc procPath,
    freshMount .tmpfs runPath, freshMount .tmpfs tmpPath]

theorem systemMounts_place (view : View Text Place) (path : List Text) :
    mountAll view systemMounts path = systemPlace path := by
  cases path with
  | nil => rfl
  | cons name below =>
    have hcover : ∀ (kind : Fresh) (top : Text) (h : top ≠ [] ∧ slash ∉ top ∧ top ≠ lit "."),
        (freshMount kind (topPath top h)).Covers (name :: below) ↔ top = name := by
      intro kind top h
      show [top] <+: name :: below ↔ _
      rw [List.cons_prefix_cons]
      exact and_iff_left List.nil_prefix
    have hshows : ∀ (kind : Fresh) (top : Text) (h : top ≠ [] ∧ slash ∉ top ∧ top ≠ lit "."),
        (freshMount kind (topPath top h)).shows (name :: below) = .fresh kind below :=
      fun _ _ _ => rfl
    have hroot : (bindMount rootPath rootPath false).Covers (name :: below) := List.nil_prefix
    have hwhole : (bindMount rootPath rootPath false).shows (name :: below) =
        .host (name :: below) false := rfl
    simp only [systemMounts, mountAll, List.foldl_cons, List.foldl_nil, mount, devPath, procPath,
      runPath, tmpPath, hcover, hshows, hroot, hwhole, if_true, systemPlace]
    by_cases htop : name ∈ [lit "dev", lit "proc", lit "run", lit "tmp"]
    · simp only [List.mem_cons, List.not_mem_nil, or_false] at htop
      rcases htop with rfl | rfl | rfl | rfl <;> rfl
    · simp only [List.mem_cons, List.not_mem_nil, or_false, not_or] at htop
      obtain ⟨hdev, hproc, hrun, htmp⟩ := htop
      simp only [freshAt, hdev, hproc, hrun, htmp, Ne.symm hdev, Ne.symm hproc, Ne.symm hrun,
        Ne.symm htmp, or_self, if_false]

theorem bindMount_shows {path : PosixPath} {writable : Bool} {location : List Text}
    (h : (bindMount path path writable).Covers location) :
    (bindMount path path writable).shows location = .host location writable := by
  obtain ⟨below, rfl⟩ := h
  show Place.host (path.names ++ (path.names ++ below).drop path.names.length) writable = _
  rw [List.drop_left]
  rfl

/-- Directories of the host, at their own paths, hide what was mounted there before. -/
theorem bindMounts_place (view : View Text Place) (dirs : List PosixPath) (writable : Bool)
    (path : List Text) :
    mountAll view (dirs.map fun dir => bindMount dir dir writable) path =
      if Below dirs path then .host path writable else view path := by
  have hbelow : Below dirs path ↔
      ∃ m ∈ dirs.map fun dir => bindMount dir dir writable, m.Covers path := by
    simp [Below, Mount.Covers, bindMount]
  have hall : ∀ m ∈ dirs.map fun dir => bindMount dir dir writable, m.Covers path →
      m.shows path = .host path writable := by
    intro m hm hcovers
    obtain ⟨dir, -, rfl⟩ := List.mem_map.mp hm
    exact bindMount_shows hcovers
  by_cases h : Below dirs path
  · rw [if_pos h, mountAll_of_some (hbelow.mp h) hall]
  · rw [if_neg h]
    have hnone := mt hbelow.mpr h
    push Not at hnone
    exact mountAll_of_none hnone

variable (bwrap : Bubblewrap)

theorem setUp_flags (flags : List Text) (h : ∀ flag ∈ flags, flag ∈ isolationFlags)
    (rest : List Text) (s : Sandbox) :
    bwrap.setUp (flags ++ rest) s =
      bwrap.setUp rest { s with isolation := s.isolation ++ flags } := by
  induction flags generalizing s with
  | nil => simp
  | cons flag flags ih =>
    rw [List.forall_mem_cons] at h
    rw [List.cons_append, bwrap.flag flag h.1, ih h.2]
    simp

def bindOption (writable : Bool) : Text := if writable then lit "--bind" else lit "--ro-bind"

/-- The arguments for some directories mount them one after the other. -/
theorem setUp_binds {dirs : List PosixPath} (h : ∀ dir ∈ dirs, dir.Resolved) (writable : Bool)
    (rest : List Text) (s : Sandbox) :
    bwrap.setUp (dirs.flatMap (bindArguments (bindOption writable)) ++ rest) s =
      bwrap.setUp rest { s with
        view := mountAll s.view (dirs.map fun dir => bindMount dir dir writable) } := by
  induction dirs generalizing s with
  | nil => rfl
  | cons dir dirs ih =>
    rw [List.forall_mem_cons] at h
    have hhead : bwrap.setUp (bindArguments (bindOption writable) dir ++
        (dirs.flatMap (bindArguments (bindOption writable)) ++ rest)) s =
          bwrap.setUp (dirs.flatMap (bindArguments (bindOption writable)) ++ rest)
            (s.mounted (bindMount dir dir writable)) := by
      cases writable with
      | true => exact bwrap.bind dir dir h.1 h.1 _ s
      | false => exact bwrap.roBind dir dir h.1 h.1 _ s
    rw [List.flatMap_cons, List.append_assoc, hhead, ih h.2]
    rfl

/-- The arguments for the mounts that do not depend on the directories given. -/
def systemArguments : List Text :=
  [lit "--ro-bind", lit "/", lit "/", lit "--dev", lit "/dev", lit "--proc", lit "/proc",
    lit "--tmpfs", lit "/run", lit "--tmpfs", lit "/tmp"]

theorem setUp_system (rest : List Text) (s : Sandbox) :
    bwrap.setUp (systemArguments ++ rest) s =
      bwrap.setUp rest { s with view := mountAll s.view systemMounts } := by
  have hresolved : ∀ path ∈ [rootPath, devPath, procPath, runPath, tmpPath], path.Resolved := by
    intro path hpath
    simp only [List.mem_cons, List.not_mem_nil, or_false] at hpath
    rcases hpath with rfl | rfl | rfl | rfl | rfl <;> exact ⟨rfl, by decide⟩
  have hroot := bwrap.roBind rootPath rootPath (hresolved _ (by simp)) (hresolved _ (by simp))
  have hdev := bwrap.fresh .dev devPath (hresolved _ (by simp))
  have hproc := bwrap.fresh .proc procPath (hresolved _ (by simp))
  have hrun := bwrap.fresh .tmpfs runPath (hresolved _ (by simp))
  have htmp := bwrap.fresh .tmpfs tmpPath (hresolved _ (by simp))
  calc bwrap.setUp _ s
      = bwrap.setUp (lit "--dev" :: devPath.str :: lit "--proc" :: procPath.str :: lit "--tmpfs" ::
          runPath.str :: lit "--tmpfs" :: tmpPath.str :: rest)
            (s.mounted (bindMount rootPath rootPath false)) := hroot _ s
    _ = _ := hdev _ _
    _ = _ := hproc _ _
    _ = _ := hrun _ _
    _ = _ := htmp _ _

/-- The view after all of the mounts. -/
def sandboxView (stepDirs trusted extra : List PosixPath) : View Text Place :=
  mountAll (mountAll (mountAll (mountAll (fun _ => .nothing) systemMounts)
    (stepDirs.map fun dir => bindMount dir dir true))
      (trusted.map fun dir => bindMount dir dir false))
        (extra.map fun dir => bindMount dir dir true)

theorem sandboxView_eq (stepDirs trusted extra : List PosixPath) (path : List Text) :
    sandboxView stepDirs trusted extra path = placeIn stepDirs trusted extra path := by
  simp only [sandboxView, bindMounts_place, systemMounts_place, placeIn]

theorem placeIn_writable (stepDirs trusted extra : List PosixPath) (path source : List Text) :
    placeIn stepDirs trusted extra path = .host source true ↔ source = path ∧
      (Below extra path ∨ ¬ Below trusted path ∧ Below stepDirs path) := by
  have hsystem : systemPlace path ≠ .host source true := by
    unfold systemPlace
    split
    · simp
    · split <;> simp
  unfold placeIn
  split_ifs with h1 h2 h3
  · simp [h1, eq_comm]
  · simp [h1, h2]
  · simp [h1, h2, h3, eq_comm]
  · simp [h1, h2, h3, hsystem]

/-- Whatever the directories, the binary and the inner command: the arguments set up a sandbox with
all of the isolation and run the inner command in it, unchanged. At each path stands what is meant
to; so a path of the host can be written to only below an extra directory, or below a directory of
the step and no trusted one. -/
theorem sandbox_confines (sandboxBinary : Text) (innerCommand : List Text)
    (workspace stepRunDir scratchDir runsRoot : PosixPath)
    (trustedReadonlyPaths extraWritable : Option (List PosixPath))
    (hresolved : ∀ path ∈ [workspace, stepRunDir, scratchDir, runsRoot] ++
      trustedReadonlyPaths.getD [] ++ extraWritable.getD [], path.Resolved) :
    ∃ arguments view, buildHostSandboxCommand sandboxBinary innerCommand workspace stepRunDir
        scratchDir runsRoot trustedReadonlyPaths extraWritable = sandboxBinary :: arguments ∧
      bwrap.setUp arguments ⟨[], fun _ => .nothing⟩ = some (⟨isolationFlags, view⟩, innerCommand) ∧
      (∀ path, view path = placeIn [workspace, stepRunDir, scratchDir, runsRoot]
        (trustedReadonlyPaths.getD []) (extraWritable.getD []) path) ∧
      ∀ path source, view path = .host source true ↔ source = path ∧
        (Below (extraWritable.getD []) path ∨ ¬ Below (trustedReadonlyPaths.getD []) path ∧
          Below [workspace, stepRunDir, scratchDir, runsRoot] path) := by
  simp only [List.mem_append, or_imp, forall_and] at hresolved
  obtain ⟨⟨hstep, htrusted⟩, hextra⟩ := hresolved
  refine ⟨isolationFlags ++ (systemArguments ++
    ([workspace, stepRunDir, scratchDir, runsRoot].flatMap (bindArguments (lit "--bind")) ++
      ((trustedReadonlyPaths.getD []).flatMap (bindArguments (lit "--ro-bind")) ++
        ((extraWritable.getD []).flatMap (bindArguments (lit "--bind")) ++
          lit "--" :: innerCommand)))),
    sandboxView [workspace, stepRunDir, scratchDir, runsRoot] (trustedReadonlyPaths.getD [])
      (extraWritable.getD []), ?_, ?_, fun path => sandboxView_eq _ _ _ path, ?_⟩
  · simp [buildHostSandboxCommand, isolationFlags, systemArguments, bindArguments]
  · rw [setUp_flags bwrap isolationFlags fun _ h => h, setUp_system]
    have hbind : lit "--bind" = bindOption true := rfl
    have hroBind : lit "--ro-bind" = bindOption false := rfl
    rw [hbind, hroBind, setUp_binds bwrap hstep, setUp_binds bwrap htrusted,
      setUp_binds bwrap hextra, bwrap.command]
    rfl
  · intro path source
    rw [sandboxView_eq]
    exact placeIn_writable _ _ _ path source

/-- A trusted directory within the workspace, and an inner command that asks for more. -/
theorem sandbox_confines_nested :
    let top (name : Text) (h : name ≠ [] ∧ slash ∉ name ∧ name ≠ lit ".") := topPath name h
    let keys : PosixPath := ⟨1, [lit "w", lit "keys"], by decide⟩
    ∃ arguments view, buildHostSandboxCommand (lit "bwrap") [lit "--bind", lit "/", lit "/"]
        (top (lit "w") (by decide)) (top (lit "step") (by decide)) (top (lit "tmp") (by decide))
        (top (lit "runs") (by decide)) (some [keys]) none = lit "bwrap" :: arguments ∧
      documented.setUp arguments ⟨[], fun _ => .nothing⟩ =
        some (⟨isolationFlags, view⟩, [lit "--bind", lit "/", lit "/"]) ∧
      view [lit "w", lit "a"] = .host [lit "w", lit "a"] true ∧
      view [lit "w", lit "keys", lit "b"] = .host [lit "w", lit "keys", lit "b"] false ∧
      view [lit "dev", lit "null"] = .fresh .dev [lit "null"] ∧
      view [lit "etc"] = .host [lit "etc"] false := by
  intro top keys
  have hresolved : ∀ path ∈ [top (lit "w") (by decide), top (lit "step") (by decide),
      top (lit "tmp") (by decide), top (lit "runs") (by decide)] ++ (some [keys]).getD [] ++
        (none : Option (List PosixPath)).getD [], path.Resolved := by
    intro path hpath
    simp only [Option.getD_some, Option.getD_none, List.append_nil, List.cons_append,
      List.nil_append, List.mem_cons, List.not_mem_nil, or_false] at hpath
    rcases hpath with rfl | rfl | rfl | rfl | rfl <;> exact ⟨rfl, by decide⟩
  obtain ⟨arguments, view, hcommand, hset, hview, -⟩ := sandbox_confines documented (lit "bwrap")
    [lit "--bind", lit "/", lit "/"] _ _ _ _ (some [keys]) none hresolved
  refine ⟨arguments, view, hcommand, hset, ?_, ?_, ?_, ?_⟩
  · rw [hview]
    decide
  · rw [hview]
    decide
  · rw [hview]
    decide
  · rw [hview]
    decide

end Contained

end SandboxExec
