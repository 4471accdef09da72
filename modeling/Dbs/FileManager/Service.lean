/-
  File:      Dbs/FileManager/Service.lean
  Subject:   THE FILE MANAGER STAYS INSIDE ITS ROOTS (file_service.py, list, download, upload,
             create_folder, delete; ssh_gateway.py, what they call).

  A call that resolves a path (`realpath`) is not among the calls that are judged: it reads no entry.
  Whether the password or the ticket of a download was enough is a parameter.

  * `list`, `download`, `upload`, `createFolder`, `delete` -- the calls that each makes, or may make;
  * `Call.Inside` -- a followed path is inside a root, the folder of an entry is; `IsRoot` -- an entry
    that is a root, or the folder where one really is;
  * `Server` -- files that stand still, and a `realpath` that finds whatever there is;
  * `Aliased` -- what is to be deleted is a link that is a root, under another spelling;
  * `calls_inside` -- every call is inside; `stays_in_roots_iff` -- and no root is deleted, unless it is
    aliased; `root_removed` -- one that is.
-/
import Dbs.FileManager.Paths
import Mathlib.Data.List.Induction

namespace Dbs.FileManager

open Posix Mounts

/-! ## 1. Calls -/

inductive Kind
  | file
  | folder
  | link
  | other

/-- What a request does on the server. -/
inductive Call
  | listdir (path : PathText)
  | lstat (path : PathText)
  | streamFile (path : PathText)
  | create (path : PathText)
  | rename (old new : PathText)
  | mkdir (path : PathText)
  | remove (path : PathText)
  | rmdir (path : PathText)

/-- The calls of a request, and how it was refused. -/
structure Run where
  calls : List Call
  refusal : Option Refusal

/-- What `RemoteHost.lstat` answers. -/
abbrev Lstat := PathText → Except Trouble Kind

structure Configured where
  application : Application
  fileRoots : List PathText

/-- `_host_roots` -/
def hostRoots (cwd : Location) (a : Configured) : List PathText :=
  a.fileRoots.filterMap (a.application.hostPath cwd)

def roots (cwd : Location) (a : Configured) : List PathText := allowedRoots (hostRoots cwd a)

section Requests

variable (realpath : Realpath) (lstat : Lstat) (roots : List PathText)

def list (path : PathText) : Run :=
  match followedPath realpath realpath roots (if path = [""] then roots.headD [""] else path) with
  | .error refusal => ⟨[], some refusal⟩
  | .ok (_, real) => ⟨[.listdir real], none⟩

/-- `found.kind != FILE` -/
def checkedFile (real : PathText) : Except Refusal Unit :=
  match lstat real with
  | .error trouble => .error (.remote trouble)
  | .ok .file => .ok ()
  | .ok _ => .error .notAFile

/-- `granted`: what the password or the ticket came to. -/
def download (path : PathText) (granted : Except Refusal Unit) : Run :=
  match followedPath realpath realpath roots path with
  | .error refusal => ⟨[], some refusal⟩
  | .ok (_, real) => match checkedFile lstat real with
    | .error refusal => ⟨[.lstat real], some refusal⟩
    | .ok () => match granted with
      | .error refusal => ⟨[.lstat real], some refusal⟩
      | .ok () => ⟨[.lstat real, .streamFile real], none⟩

/-- `_partial_name` -/
def partialName (kept token : String) : String := "." ++ kept ++ ".part-" ++ token

/-- `write_new`: each call that it makes, or makes where another one failed. -/
def writeNew (folder : PathText) (name : PathText) (kept token : String) : Run :=
  match name with
  | [name] =>
    if name = "" || name = "." || name = ".." then ⟨[], some .notAFileName⟩
    else
      let target := join folder [name]
      let part := join folder [partialName kept token]
      ⟨[.lstat target, .create part, .lstat target, .rename part target, .remove part, .lstat target],
        none⟩
  | _ => ⟨[], some .notAFileName⟩

/-- `name`: what `upload_name` made of the file's own. -/
def upload (folder : PathText) (name : Option PathText) (tooLarge : Bool) (kept token : String) : Run :=
  match name with
  | none => ⟨[], some .invalidName⟩
  | some name =>
    if tooLarge then ⟨[], some .uploadTooLarge⟩
    else match followedPath realpath realpath roots folder with
      | .error refusal => ⟨[], some refusal⟩
      | .ok (_, real) => writeNew real name kept token

def createFolder (printable : Char → Bool) (folder name : PathText) : Run :=
  match entryName printable name with
  | none => ⟨[], some .invalidName⟩
  | some name => match followedPath realpath realpath roots folder with
    | .error refusal => ⟨[], some refusal⟩
    | .ok (_, real) => ⟨[.mkdir (join real [name]), .lstat (join real [name])], none⟩

/-- `_Guard.itself` -/
def itself (reals : List PathText) (located : Located) : Except Refusal PathText :=
  match followed realpath reals (dirname located.path) with
  | .error refusal => .error refusal
  | .ok real => .ok (join real [located.name])

/-- What is to be deleted, as far as it may be. -/
def deleteTarget (path : PathText) : Except Refusal PathText :=
  match locate path roots with
  | .error refusal => .error refusal
  | .ok located =>
    if located.path ∈ roots then .error .cannotDeleteRoot
    else match realRoots realpath roots with
      | .error trouble => .error (.remote trouble)
      | .ok reals => match itself realpath reals located with
        | .error refusal => .error refusal
        | .ok entry => if entry ∈ reals then .error .cannotDeleteRoot else .ok entry

/-- A folder that cannot be removed is listed, for whether it holds anything. -/
def delete (path : PathText) : Run :=
  match deleteTarget realpath roots path with
  | .error refusal => ⟨[], some refusal⟩
  | .ok entry => match lstat entry with
    | .error trouble => ⟨[.lstat entry], some (.remote trouble)⟩
    | .ok .folder => ⟨[.lstat entry, .rmdir entry, .listdir entry], none⟩
    | .ok _ => ⟨[.lstat entry, .remove entry], none⟩

end Requests

inductive Request
  | list (path : PathText)
  | download (path : PathText) (granted : Except Refusal Unit)
  | upload (folder : PathText) (name : Option PathText) (tooLarge : Bool) (kept token : String)
  | createFolder (printable : Char → Bool) (folder name : PathText)
  | delete (path : PathText)

def Request.run (realpath : Realpath) (lstat : Lstat) (roots : List PathText) : Request → Run
  | .list path => FileManager.list realpath roots path
  | .download path granted => FileManager.download realpath lstat roots path granted
  | .upload folder name tooLarge kept token =>
    FileManager.upload realpath roots folder name tooLarge kept token
  | .createFolder printable folder name => FileManager.createFolder realpath roots printable folder name
  | .delete path => FileManager.delete realpath lstat roots path

/-! ## 2. Where they act -/

/-- The folder of an entry is in a root. -/
def EntryInside (files : Files) (roots : List PathText) (path : PathText) : Prop :=
  ∃ folder, files.Leads (dirname path) folder ∧ InRoot files roots folder

/-- `lstat` is of an entry, or of a path that was followed. -/
def Call.Inside (files : Files) (roots : List PathText) : Call → Prop
  | .listdir path | .streamFile path => ∃ loc, files.Leads path loc ∧ InRoot files roots loc
  | .lstat path => EntryInside files roots path ∨
      ∃ loc, Plain files.fs loc ∧ path = absolute loc ∧ InRoot files roots loc
  | .create path | .mkdir path | .remove path | .rmdir path => EntryInside files roots path
  | .rename old new => EntryInside files roots old ∧ EntryInside files roots new

/-- The entry of a root, or where a root really is. -/
def IsRoot (files : Files) (roots : List PathText) (loc : Location) : Prop :=
  ∃ root ∈ roots, files.Leads root loc ∨
    ∃ folder, files.Leads (dirname root) folder ∧ folder ++ [basename root] = loc

/-- What is removed is no root. -/
def Call.SparesRoots (files : Files) (roots : List PathText) : Call → Prop
  | .remove path | .rmdir path =>
    ∀ folder, files.Leads (dirname path) folder → ¬ IsRoot files roots (folder ++ [basename path])
  | _ => True

/-- Every call is inside, and what a delete removes is no root. -/
def Stays (files : Files) (roots : List PathText) (request : Request) (calls : List Call) : Prop :=
  (∀ call ∈ calls, call.Inside files roots) ∧
    ∀ path, request = .delete path → ∀ call ∈ calls, call.SparesRoots files roots

/-- Files that stand still, and a server that resolves whatever there is. -/
structure Server extends Files where
  /-- What is not a folder, a link or a regular file. -/
  special : Location → Bool
  tree : ∀ loc name, fs (loc ++ [name]) ≠ none → fs loc = some .directory
  names : ∀ loc, fs loc ≠ none → hasNul (absolute loc) = false
  realpath : Realpath
  truthful : Truthful toFiles realpath
  resolves : ∀ path loc, toFiles.Leads path loc → fs loc ≠ none → realpath path = .ok (absolute loc)

/-- Of an entry by the real path of its folder. -/
def Server.lstat (server : Server) (path : PathText) : Except Trouble Kind :=
  match server.fs (parts path) with
  | none => .error .notFound
  | some .directory => .ok .folder
  | some (.link _) => .ok .link
  | some .file => .ok (if server.special (parts path) then .other else .file)

/-! ## 3. Every call is inside -/

/-- The roots are texts of names. -/
def Rooted (roots : List PathText) : Prop :=
  ∀ root ∈ roots, ∃ names, Proper names ∧ root = absolute names

theorem rooted_roots (cwd : Location) (a : Configured) : Rooted (roots cwd a) := by
  intro root hroot
  obtain ⟨path, -, hpath⟩ := mem_allowedRoots.mp hroot
  obtain ⟨hproper, rfl⟩ := absolutePath_eq_some hpath
  exact ⟨_, hproper, rfl⟩

section Inside

variable {files : Files} {server : Server} {roots reals : List PathText} {path q entry real : PathText}
  {loc folder front : Location} {name : String}

theorem entryInside_absolute (hfolder : Plain files.fs folder) (hin : InRoot files roots folder)
    (name : String) : EntryInside files roots (absolute (folder ++ [name])) := by
  refine ⟨folder, ?_, hin⟩
  rw [dirname_absolute hfolder.names]
  exact Files.leads_absolute hfolder

theorem entryInside_join (hfolder : Plain files.fs folder) (hin : InRoot files roots folder)
    (name : String) : EntryInside files roots (join (absolute folder) [name]) := by
  rw [join_absolute hfolder.names]
  exact entryInside_absolute hfolder hin name

/-- What a delete is about: an entry of a folder in a root, by a path that is none of the roots. -/
structure Target (server : Server) (roots : List PathText) (path : PathText) (front : Location)
    (name : String) (folder : Location) : Prop where
  typed : absolutePath path = some (absolute (front ++ [name]))
  proper : Proper (front ++ [name])
  fresh : absolute (front ++ [name]) ∉ roots
  held : ∃ root ∈ roots, within (absolute (front ++ [name])) root = true
  leads : server.toFiles.Leads (absolute front) folder
  inRoot : InRoot server.toFiles roots folder
  answered : ∃ reals, realRoots server.realpath roots = .ok reals ∧ absolute (folder ++ [name]) ∉ reals

theorem Target.name_ne (h : Target server roots path front name folder) :
    special name = false ∧ name ≠ ".." :=
  h.proper name (List.mem_append_right _ (List.mem_singleton_self name))

/-- The path of a root itself is refused, and so the one that is typed has a name. -/
theorem exists_name (hroots : Rooted roots) (hq : absolutePath path = some q) (hfresh : q ∉ roots)
    (hheld : ∃ root ∈ roots, within q root = true) :
    ∃ front name, q = absolute (front ++ [name]) ∧ Proper (front ++ [name]) := by
  obtain ⟨hproper, rfl⟩ := absolutePath_eq_some hq
  rcases List.eq_nil_or_concat (parts path) with hnil | ⟨front, name, heq⟩
  · rw [hnil] at hheld hfresh
    obtain ⟨root, hroot, hwithin⟩ := hheld
    obtain ⟨names, hnames, rfl⟩ := hroots root hroot
    have hbegins := (within_absolute (a := []) nofun hnames).mp hwithin
    rw [List.prefix_nil.mp hbegins] at hroot
    exact absurd hroot hfresh
  · rw [List.concat_eq_append] at heq
    rw [heq] at hproper ⊢
    exact ⟨front, name, rfl, hproper⟩

theorem deleteTarget_eq_ok (hroots : Rooted roots)
    (h : deleteTarget server.realpath roots path = .ok entry) :
    ∃ front name folder, Target server roots path front name folder ∧
      entry = absolute (folder ++ [name]) := by
  rw [deleteTarget] at h
  split at h
  · cases h
  · next located hlocated =>
    obtain ⟨htyped, hroot⟩ := locate_eq_ok hlocated
    split at h
    · cases h
    · next hfresh =>
      split at h
      · cases h
      · next reals hreals =>
        split at h
        · cases h
        · next found hfound =>
          split at h
          · cases h
          · next hnot =>
            obtain rfl := Except.ok.inj h
            obtain ⟨front, name, hq, hproper⟩ := exists_name hroots htyped hfresh ⟨_, hroot⟩
            have hfront : Proper front := fun n hn => hproper n (List.mem_append_left _ hn)
            rw [itself, Located.name, hq, dirname_absolute hfront, basename_absolute] at hfound
            split at hfound
            · cases hfound
            · next real hreal =>
              obtain ⟨folder, hfolder, rfl, hin⟩ :=
                followed_eq_ok server.truthful server.truthful hreals hreal
              have hjoin : found = absolute (folder ++ [name]) := by
                rw [← Except.ok.inj hfound, join_absolute hfolder.plain.names]
              subst hjoin
              rw [hq] at htyped hfresh hroot
              exact ⟨front, name, folder, ⟨htyped, hproper, hfresh, ⟨_, hroot⟩, hfolder, hin,
                ⟨reals, hreals, hnot⟩⟩, rfl⟩

theorem lstat_absolute (h : Proper loc) : server.lstat (absolute loc) =
    match server.fs loc with
    | none => .error .notFound
    | some .directory => .ok .folder
    | some (.link _) => .ok .link
    | some .file => .ok (if server.special loc then .other else .file) := by
  rw [Server.lstat, parts_proper h]

theorem Target.properEntry (h : Target server roots path front name folder) :
    Proper (folder ++ [name]) := by
  intro n hn
  rcases List.mem_append.mp hn with hn | hn
  · exact h.leads.plain.names n hn
  · rw [List.mem_singleton.mp hn]
    exact h.name_ne

theorem InRoot.append (h : InRoot files roots folder) (name : String) :
    InRoot files roots (folder ++ [name]) := by
  obtain ⟨root, hroot, real, hreal, hbegins⟩ := h
  exact ⟨root, hroot, real, hreal, hbegins.trans (List.prefix_append _ _)⟩

/-- A delete acts on its target, and in it only where it is a folder. -/
theorem delete_inside (hroots : Rooted roots) {call : Call}
    (h : call ∈ (delete server.realpath server.lstat roots path).calls) :
    call.Inside server.toFiles roots := by
  rw [delete] at h
  split at h
  · cases h
  · next entry hentry =>
    obtain ⟨front, name, folder, htarget, rfl⟩ := deleteTarget_eq_ok hroots hentry
    have hin : EntryInside server.toFiles roots (absolute (folder ++ [name])) :=
      entryInside_absolute htarget.leads.plain htarget.inRoot name
    split at h
    · obtain rfl := List.mem_singleton.mp h
      exact Or.inl hin
    · next hkind =>
      rw [lstat_absolute htarget.properEntry] at hkind
      have hfolder : server.fs (folder ++ [name]) = some .directory := by
        split at hkind
        · cases hkind
        · assumption
        · cases hkind
        · split at hkind <;> cases hkind
      have hplain : Plain server.fs (folder ++ [name]) :=
        htarget.leads.plain.append htarget.name_ne fun target hlink => by
          rw [hfolder] at hlink
          cases hlink
      rcases List.mem_cons.mp h with rfl | h
      · exact Or.inl hin
      rcases List.mem_cons.mp h with rfl | h
      · exact hin
      · obtain rfl := List.mem_singleton.mp h
        exact ⟨_, Files.leads_absolute hplain, htarget.inRoot.append name⟩
    · rcases List.mem_cons.mp h with rfl | h
      · exact Or.inl hin
      · obtain rfl := List.mem_singleton.mp h
        exact hin

theorem writeNew_inside (hfolder : Plain files.fs folder) (hin : InRoot files roots folder)
    {call : Call}
    {typed : PathText} {kept token : String}
    (h : call ∈ (writeNew (absolute folder) typed kept token).calls) : call.Inside files roots := by
  have hentry : ∀ name, EntryInside files roots (join (absolute folder) [name]) :=
    entryInside_join hfolder hin
  unfold writeNew at h
  split at h
  · split at h
    · cases h
    · simp only [List.mem_cons, List.not_mem_nil, or_false] at h
      rcases h with rfl | rfl | rfl | rfl | rfl | rfl
      · exact Or.inl (hentry _)
      · exact hentry _
      · exact Or.inl (hentry _)
      · exact ⟨hentry _, hentry _⟩
      · exact hentry _
      · exact Or.inl (hentry _)
  · cases h

/-- **Every call is inside a root.** -/
theorem calls_inside (hroots : Rooted roots) (request : Request) :
    ∀ call ∈ (request.run server.realpath server.lstat roots).calls,
      call.Inside server.toFiles roots := by
  intro call h
  cases request with
  | list path =>
    rw [Request.run, list] at h
    split at h
    · cases h
    · next located real hfound =>
      obtain ⟨loc, hloc, rfl, hin⟩ := followed_inRoot server.truthful server.truthful hfound
      obtain rfl := List.mem_singleton.mp h
      exact ⟨loc, Files.leads_absolute hloc.plain, hin⟩
  | download path granted =>
    rw [Request.run, download] at h
    split at h
    · cases h
    · next located real hfound =>
      obtain ⟨loc, hloc, rfl, hin⟩ := followed_inRoot server.truthful server.truthful hfound
      have hlstat : Call.Inside server.toFiles roots (.lstat (absolute loc)) :=
        Or.inr ⟨loc, hloc.plain, rfl, hin⟩
      split at h
      · exact List.mem_singleton.mp h ▸ hlstat
      · split at h
        · exact List.mem_singleton.mp h ▸ hlstat
        · rcases List.mem_cons.mp h with rfl | h
          · exact hlstat
          · obtain rfl := List.mem_singleton.mp h
            exact ⟨loc, Files.leads_absolute hloc.plain, hin⟩
  | upload typed name tooLarge kept token =>
    rw [Request.run, upload.eq_def] at h
    split at h
    · cases h
    · split at h
      · cases h
      · split at h
        · cases h
        · next located real hfound =>
          obtain ⟨loc, hloc, rfl, hin⟩ := followed_inRoot server.truthful server.truthful hfound
          exact writeNew_inside hloc.plain hin h
  | createFolder printable typed name =>
    rw [Request.run, createFolder] at h
    split at h
    · cases h
    · split at h
      · cases h
      · next located real hfound =>
        obtain ⟨loc, hloc, rfl, hin⟩ := followed_inRoot server.truthful server.truthful hfound
        rcases List.mem_cons.mp h with rfl | h
        · exact entryInside_join hloc.plain hin _
        · obtain rfl := List.mem_singleton.mp h
          exact Or.inl (entryInside_join hloc.plain hin _)
  | delete path => exact delete_inside hroots h

end Inside

/-! ## 4. The roots -/

/-- **What goes wrong**: the entry that is typed, in a folder in a root, is a link that is one of the
    roots, by a path that is none of them; and the server answers for the roots. -/
def Aliased (server : Server) (roots : List PathText) (typed : PathText) : Prop :=
  ∃ path folder target, absolutePath typed = some path ∧ path ∉ roots ∧
    (∃ root ∈ roots, within path root = true) ∧
    server.toFiles.Leads (dirname path) folder ∧ InRoot server.toFiles roots folder ∧
    server.fs (folder ++ [basename path]) = some (.link target) ∧
    (∃ root ∈ roots, ∃ of, server.toFiles.Leads (dirname root) of ∧
      of ++ [basename root] = folder ++ [basename path]) ∧
    ∀ root ∈ roots, server.realpath root ≠ .error .commandFailed

section Roots

variable {server : Server} {roots reals : List PathText} {path q entry real : PathText}
  {loc folder front : Location} {name : String}

theorem absolutePath_absolute (hloc : Proper loc) (hnul : hasNul (absolute loc) = false) :
    absolutePath (absolute loc) = some (absolute loc) := by
  have hup : ".." ∉ absolute loc := by
    rw [absolute]
    split
    · decide
    · rw [List.mem_cons, not_or]
      exact ⟨by decide, fun h => (hloc _ h).2 rfl⟩
  cases h : absolutePath (absolute loc) with
  | some found => rw [of_absolutePath_absolute hloc h]
  | none =>
    rw [absolutePath, isAbs_absolute, hnul, if_neg] at h
    · cases h
    · simpa using hup

theorem Server.exists_of_prefix {p : Location} (h : server.fs loc ≠ none) (hp : p <+: loc) :
    server.fs p ≠ none := by
  obtain ⟨rest, rfl⟩ := hp
  induction rest using List.reverseRecOn with
  | nil => rwa [List.append_nil] at h
  | append_singleton rest name ih =>
    rw [← List.append_assoc] at h
    exact ih (by rw [server.tree _ _ h]; nofun)

/-- A root that is there is answered, and taken as it is. -/
theorem realRoot_of_exists {root : PathText} (hleads : server.toFiles.Leads root loc)
    (hexists : server.fs loc ≠ none) : realRoot server.realpath root = .ok (some (absolute loc)) := by
  rw [realRoot, server.resolves root loc hleads hexists]
  exact congrArg Except.ok (absolutePath_absolute hleads.plain.names (server.names loc hexists))

theorem exists_realRoots (h : ∀ root ∈ roots, server.realpath root ≠ .error .commandFailed) :
    ∃ reals, realRoots server.realpath roots = .ok reals := by
  induction roots with
  | nil => exact ⟨[], rfl⟩
  | cons root roots ih =>
    obtain ⟨reals, hreals⟩ := ih fun root hroot => h root (List.mem_cons_of_mem _ hroot)
    have hroot := h root List.mem_cons_self
    cases hreal : realRoot server.realpath root with
    | error trouble =>
      rw [realRoot] at hreal
      split at hreal
      · cases hreal
      · next hfailed => exact absurd hfailed hroot
      · cases hreal
      · cases hreal
    | ok found => cases found with
      | none => exact ⟨reals, by rw [realRoots, hreal, hreals]⟩
      | some real => exact ⟨real :: reals, by rw [realRoots, hreal, hreals]⟩

theorem answered_of_realRoots (h : realRoots server.realpath roots = .ok reals) :
    ∀ root ∈ roots, server.realpath root ≠ .error .commandFailed := by
  induction roots generalizing reals with
  | nil => nofun
  | cons first roots ih =>
    intro root hroot hfailed
    rw [realRoots] at h
    split at h
    · cases h
    · cases h
    all_goals
      next hfirst hrest =>
      rcases List.mem_cons.mp hroot with rfl | hroot
      · rw [realRoot, hfailed] at hfirst
        cases hfirst
      · exact ih hrest root hroot hfailed

theorem exists_locate (hq : absolutePath path = some q) (hheld : ∃ root ∈ roots, within q root = true) :
    ∃ located, locate path roots = .ok located ∧ located.path = q := by
  obtain ⟨root, hroot, hwithin⟩ := hheld
  have hmem := List.mem_filter.mpr ⟨hroot, hwithin⟩
  rw [locate, if_neg (List.ne_nil_of_mem hroot), hq]
  cases hlongest : longest (roots.filter (within q)) with
  | none =>
    have hnil : roots.filter (within q) = [] := by
      cases hfilter : roots.filter (within q) with
      | nil => rfl
      | cons first rest =>
        rw [hfilter, longest] at hlongest
        split at hlongest
        · cases hlongest
        · split at hlongest <;> cases hlongest
    rw [hnil] at hmem
    cases hmem
  | some root => exact ⟨⟨q, root⟩, by simp only [hlongest], rfl⟩

/-- A real path in a root is followed to itself. -/
theorem followed_of_inRoot (hleads : server.toFiles.Leads path folder)
    (hexists : server.fs folder ≠ none)
    (hin : InRoot server.toFiles roots folder) (hreals : realRoots server.realpath roots = .ok reals) :
    followed server.realpath reals path = .ok (absolute folder) := by
  obtain ⟨root, hroot, real, hreal, hbegins⟩ := hin
  have hthere := realRoot_of_exists hreal (server.exists_of_prefix hexists hbegins)
  have hwithin : reals.any (within (absolute folder)) = true := by
    refine List.any_eq_true.mpr ⟨absolute real, (mem_realRoots hreals).mpr ⟨root, hroot, hthere⟩, ?_⟩
    exact (within_absolute hleads.plain.names hreal.plain.names).mpr hbegins
  rw [followed, server.resolves path folder hleads hexists]
  simp only [resolved, absolutePath_absolute hleads.plain.names (server.names folder hexists), hwithin,
    if_true]

/-- A link is no real path. -/
theorem link_notMem (hlink : ∃ target, server.fs (folder ++ [name]) = some (.link target))
    (hproper : Proper (folder ++ [name])) (hreals : realRoots server.realpath roots = .ok reals) :
    absolute (folder ++ [name]) ∉ reals := by
  intro hmem
  obtain ⟨root, -, hreal⟩ := (mem_realRoots hreals).mp hmem
  obtain ⟨loc, hloc, heq⟩ := realRoot_eq_some server.truthful hreal
  obtain ⟨target, hlink⟩ := hlink
  rw [← absolute_injective hproper hloc.plain.names heq] at hloc
  exact hloc.plain.nodes folder name List.prefix_rfl target hlink

/-- **An aliased root is removed.** -/
theorem Aliased.removes (hroots : Rooted roots) (h : Aliased server roots path) :
    ∃ folder name, Plain server.fs folder ∧
      .remove (absolute (folder ++ [name])) ∈ (delete server.realpath server.lstat roots path).calls ∧
      IsRoot server.toFiles roots (folder ++ [name]) := by
  obtain ⟨q, folder, target, htyped, hfresh, hheld, hleads, hin, hlink, ⟨root, hroot, of, hof, heq⟩,
    hanswered⟩ := h
  obtain ⟨front, name, rfl, hproper⟩ := exists_name hroots htyped hfresh hheld
  have hfront : Proper front := fun n hn => hproper n (List.mem_append_left _ hn)
  rw [basename_absolute] at hlink heq
  rw [dirname_absolute hfront] at hleads
  obtain ⟨reals, hreals⟩ := exists_realRoots hanswered
  obtain ⟨located, hlocated, hpath⟩ := exists_locate htyped hheld
  have hexists : server.fs folder ≠ none := server.exists_of_prefix (by rw [hlink]; nofun)
    (List.prefix_append _ _)
  have hname : Proper (folder ++ [name]) := by
    intro n hn
    rcases List.mem_append.mp hn with hn | hn
    · exact hleads.plain.names n hn
    · exact hproper n (List.mem_append_right _ hn)
  have hitself : itself server.realpath reals located = .ok (absolute (folder ++ [name])) := by
    rw [itself, hpath, dirname_absolute hfront, followed_of_inRoot hleads hexists hin hreals,
      Located.name, hpath,
      basename_absolute]
    exact congrArg Except.ok (join_absolute hleads.plain.names)
  have htarget : deleteTarget server.realpath roots path = .ok (absolute (folder ++ [name])) := by
    rw [deleteTarget, hlocated]
    simp only [hpath, hfresh, if_false, hreals, hitself, link_notMem ⟨target, hlink⟩ hname hreals]
  refine ⟨folder, name, hleads.plain, ?_, root, hroot, Or.inr ⟨of, hof, heq⟩⟩
  rw [delete, htarget]
  simp only [lstat_absolute hname, hlink]
  exact List.mem_cons_of_mem _ List.mem_cons_self

theorem Aliased.not_stays (hroots : Rooted roots) (h : Aliased server roots path) :
    ¬ Stays server.toFiles roots (.delete path)
      (delete server.realpath server.lstat roots path).calls := by
  obtain ⟨folder, name, hplain, hcall, hroot⟩ := h.removes hroots
  rintro ⟨-, hspares⟩
  refine hspares path rfl _ hcall folder ?_ ?_
  · rw [dirname_absolute hplain.names]
    exact Files.leads_absolute hplain
  · rwa [basename_absolute]

/-- The entry of a root, unless it is a link, is where the root really is. -/
theorem leads_entry {root : PathText} (hroots : Rooted roots) (hroot : root ∈ roots)
    (hleads : server.toFiles.Leads (dirname root) loc) (hproper : Proper (loc ++ [basename root]))
    (hnode : ∀ target, server.fs (loc ++ [basename root]) ≠ some (.link target)) :
    server.toFiles.Leads root (loc ++ [basename root]) := by
  obtain ⟨names, hnames, rfl⟩ := hroots root hroot
  rcases List.eq_nil_or_concat names with rfl | ⟨front, last, rfl⟩
  · have hempty : special (basename (absolute [])) = true := by decide
    rw [(hproper _ (List.mem_append_right _ (List.mem_singleton_self _))).1] at hempty
    cases hempty
  · rw [List.concat_eq_append] at hnames hleads hproper hnode ⊢
    have hfront : Proper front := fun n hn => hnames n (List.mem_append_left _ hn)
    rw [dirname_absolute hfront, Files.Leads, if_pos (isAbs_absolute front)] at hleads
    rw [basename_absolute] at hproper hnode ⊢
    rw [Files.Leads, if_pos (isAbs_absolute _), absolute_of_ne_nil (by simp), leads_special (by decide)]
    have hbefore : Posix.Leads server.fs [] front loc := by
      rw [absolute, leads_special (by decide)] at hleads
      split at hleads
      · next hnil =>
        subst hnil
        exact (leads_special (by decide)).mp hleads
      · exact hleads
    refine hbefore.append (.enter ?_ hnode (.done _))
    exact hnames last (List.mem_append_right _ (List.mem_singleton_self last))

/-- A delete removes no root, unless it is aliased. -/
theorem delete_spares (hroots : Rooted roots) (h : ¬ Aliased server roots path) {call : Call}
    (hcall : call ∈ (delete server.realpath server.lstat roots path).calls) :
    call.SparesRoots server.toFiles roots := by
  rw [delete] at hcall
  split at hcall
  · cases hcall
  · next entry hentry =>
    obtain ⟨front, name, folder, htarget, rfl⟩ := deleteTarget_eq_ok hroots hentry
    have hplain := htarget.leads.plain
    have hproper := htarget.properEntry
    have hfront : Proper front := fun n hn => htarget.proper n (List.mem_append_left _ hn)
    -- an entry that is there, and that the code goes on to remove
    have hspares : server.fs (folder ++ [name]) ≠ none → ∀ of,
        server.toFiles.Leads (dirname (absolute (folder ++ [name]))) of →
          ¬ IsRoot server.toFiles roots (of ++ [basename (absolute (folder ++ [name]))]) := by
      intro hexists of hof hroot
      rw [dirname_absolute hplain.names] at hof
      rw [basename_absolute, hof.unique (Files.leads_absolute hplain)] at hroot
      obtain ⟨root, hroot, hreal⟩ := hroot
      obtain ⟨reals, hreals, hnot⟩ := htarget.answered
      have hnotReal : ¬ server.toFiles.Leads root (folder ++ [name]) := fun hreal =>
        hnot ((mem_realRoots hreals).mpr ⟨root, hroot, realRoot_of_exists hreal hexists⟩)
      rcases hreal with hreal | ⟨of, hof, heq⟩
      · exact hnotReal hreal
      · by_cases hlink : ∃ target, server.fs (folder ++ [name]) = some (.link target)
        · obtain ⟨target, hlink⟩ := hlink
          refine h ⟨absolute (front ++ [name]), folder, target, htarget.typed, htarget.fresh,
            htarget.held, ?_,
            htarget.inRoot, ?_, ⟨root, hroot, of, hof, ?_⟩, fun other hother hfailed => ?_⟩
          · rw [dirname_absolute hfront]
            exact htarget.leads
          · rw [basename_absolute]
            exact hlink
          · rw [basename_absolute]
            exact heq
          · exact answered_of_realRoots hreals other hother hfailed
        · rw [← heq] at hnotReal hlink hproper
          exact hnotReal (leads_entry hroots hroot hof hproper fun target ht => hlink ⟨target, ht⟩)
    have hthere : ∀ kind, server.lstat (absolute (folder ++ [name])) = .ok kind →
        server.fs (folder ++ [name]) ≠ none := by
      intro kind hkind hnone
      rw [lstat_absolute hproper, hnone] at hkind
      cases hkind
    split at hcall
    · obtain rfl := List.mem_singleton.mp hcall
      trivial
    · next hkind =>
      rcases List.mem_cons.mp hcall with rfl | hcall
      · trivial
      rcases List.mem_cons.mp hcall with rfl | hcall
      · exact hspares (hthere _ hkind)
      · obtain rfl := List.mem_singleton.mp hcall
        trivial
    · next hkind =>
      rcases List.mem_cons.mp hcall with rfl | hcall
      · trivial
      · obtain rfl := List.mem_singleton.mp hcall
        exact hspares (hthere _ hkind)

/-- **The file manager stays inside its roots**: every call does, and no root is deleted, unless one
    is a link that is aliased. -/
theorem stays_in_roots_iff (server : Server) (cwd : Location) (a : Configured) (request : Request) :
    Stays server.toFiles (FileManager.roots cwd a) request
        (request.run server.realpath server.lstat (FileManager.roots cwd a)).calls ↔
      ∀ path, request = .delete path → ¬ Aliased server (FileManager.roots cwd a) path := by
  have hroots := rooted_roots cwd a
  constructor
  · rintro h path rfl haliased
    exact haliased.not_stays hroots h
  · intro h
    refine ⟨calls_inside hroots request, fun path hrequest call hcall => ?_⟩
    subst hrequest
    exact delete_spares hroots (h path rfl) hcall

end Roots

/-! ## 5. A root that is aliased -/

section Examples

open Classical in
/-- A server with these files, which refuses what is not there. -/
noncomputable def Server.of (files : Files) (special : Location → Bool)
    (tree : ∀ loc name, files.fs (loc ++ [name]) ≠ none → files.fs loc = some .directory)
    (names : ∀ loc, files.fs loc ≠ none → hasNul (absolute loc) = false) : Server where
  toFiles := files
  special := special
  tree := tree
  names := names
  realpath path :=
    if h : ∃ loc, files.Leads path loc ∧ files.fs loc ≠ none then .ok (absolute h.choose)
    else .error .notFound
  truthful path real h := by
    dsimp only at h
    split at h
    · next hthere =>
      exact ⟨_, hthere.choose_spec.1, (Except.ok.inj h).symm⟩
    · cases h
  resolves path loc hleads hexists := by
    have hthere : ∃ loc, files.Leads path loc ∧ files.fs loc ≠ none := ⟨loc, hleads, hexists⟩
    rw [dif_pos hthere, hthere.choose_spec.1.unique hleads]

/-- `/srv/media` is a link to `/data`, and `/pub` one to `/srv`. -/
def table : List (Location × Node) :=
  [([], .directory), (["srv"], .directory), (["data"], .directory),
    (["srv", "media"], .link ["", "data"]), (["pub"], .link ["", "srv"])]

def tableFiles : Files := ⟨fun loc => table.lookup loc, [], plain_nil⟩

theorem mem_of_table {loc : Location} (h : tableFiles.fs loc ≠ none) : ∃ node, (loc, node) ∈ table := by
  obtain ⟨node, hnode⟩ := Option.ne_none_iff_exists'.mp h
  obtain ⟨before, behind, heq, -⟩ := List.lookup_eq_some_iff.mp hnode
  exact ⟨node, by rw [heq]; simp⟩

noncomputable def tableServer : Server := .of tableFiles (fun _ => false)
  (fun loc name h => by
    obtain ⟨node, hmem⟩ := mem_of_table h
    have hall : ∀ entry ∈ table, entry.1 = [] ∨ table.lookup entry.1.dropLast = some .directory := by
      decide +kernel
    have hparent := (hall _ hmem).resolve_left
      (List.append_ne_nil_of_right_ne_nil _ (List.cons_ne_nil _ _))
    rwa [List.dropLast_concat] at hparent)
  (fun loc h => by
    obtain ⟨node, hmem⟩ := mem_of_table h
    have hall : ∀ entry ∈ table, hasNul (absolute entry.1) = false := by decide +kernel
    exact hall _ hmem)

/-- An application with two roots, `/pub` and `/srv/media`. -/
def shop : Configured := ⟨⟨1, 1, false, [], [""], false⟩, [["", "pub"], ["", "srv", "media"]]⟩

/-- **A root is removed**: `/srv/media` itself, as `/pub/media`. -/
theorem root_removed :
    ¬ Stays tableServer.toFiles (roots [] shop) (.delete ["", "pub", "media"])
      ((Request.delete ["", "pub", "media"]).run tableServer.realpath tableServer.lstat
        (roots [] shop)).calls := by
  have hroots : roots [] shop = [["", "pub"], ["", "srv", "media"]] := by decide +kernel
  have hsrv : tableServer.toFiles.Leads ["", "srv"] ["srv"] := by
    refine .skip (by decide) (.enter (by decide) (fun target h => ?_) (.done _))
    cases h
  have hpub : tableServer.toFiles.Leads ["", "pub"] ["srv"] := by
    have hlink : tableServer.fs ["pub"] = some (.link ["", "srv"]) := rfl
    exact .skip (by decide) (.follow (by decide) hlink hsrv)
  have haliased : Aliased tableServer (roots [] shop) ["", "pub", "media"] := by
    rw [hroots]
    refine ⟨["", "pub", "media"], ["srv"], ["", "data"], by decide +kernel, by decide, ?_, hpub, ?_,
      rfl, ?_, ?_⟩
    · exact ⟨["", "pub"], List.mem_cons_self, by decide +kernel⟩
    · exact ⟨["", "pub"], List.mem_cons_self, ["srv"], hpub, List.prefix_rfl⟩
    · exact ⟨["", "srv", "media"], List.mem_cons_of_mem _ List.mem_cons_self, ["srv"], hsrv, rfl⟩
    · intro root _ hfailed
      unfold tableServer Server.of at hfailed
      dsimp only at hfailed
      split at hfailed <;> cases hfailed
  exact haliased.not_stays (rooted_roots [] shop)

end Examples

end Dbs.FileManager
