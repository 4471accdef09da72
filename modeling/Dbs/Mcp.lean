/-
  File:      Dbs/Mcp.lean
  Subject:   THE MCP SERVER (manager/mcp/protocol.py): requests read line by line, at most one reply to
             each.

  * `Interpreter` -- the Python that runs it: how deep it reads and writes JSON, how long an integer it
    writes, what the encoding of its output has;
  * `Tool`, `Server`, `handle`, `serve` -- the code; a tool's handler is told which line it answers, so
    that it may do anything each time;
  * `Fits` -- the lines it gets through; `Lives` -- all lines read, each request answered once;
  * `serveLine_fits`, `handle_owed` -- one line; `serve_lives` -- a run.
-/
import Dbs.Lib.Dumps
import Mathlib.Algebra.Group.Nat.Defs

namespace Dbs.Mcp

open Json Dumps

/-! ## 1. The interpreter -/

/-- What `json.loads` gives or raises. -/
inductive Loaded where
  | value (d : Data)
  | valueError
  | recursionError

/-- `frames` counts the server's own calls from `serve` inwards: what they take of the stack is not
    there for JSON. -/
structure Interpreter where
  loads : (frames : Nat) → List Nat → Loaded
  loadsLimit : (frames : Nat) → Nat
  dumpsLimit : (frames : Nat) → Nat
  fits : Int → Bool
  encodes : Nat → Bool
  roomy : 16 ≤ dumpsLimit 0
  small : ∀ n : Int, n.natAbs < 100000 → fits n = true
  ascii : ∀ p < 128, encodes p = true

namespace Interpreter

variable (python : Interpreter)

def dumps (frames : Nat) (d : Data) : Except Raised (List Nat) :=
  Dumps.dumps python.fits (python.dumpsLimit frames) d

/-- A string the output takes. -/
def Encodes (t : List Nat) : Prop := ∀ p ∈ t, python.encodes p = true

/-- Data the output takes, `above` containers around them. -/
def Writes (above : Nat) (d : Data) : Prop :=
  Kind (fun p => python.encodes p = true) python.fits (python.dumpsLimit 0 - above) d

/-- `json.loads` gives back what `json.dumps` wrote, unless that is too deep for it. -/
def ReadsBack (frames : Nat) (d : Data) : Prop :=
  ∀ text, python.dumps frames d = .ok text →
    (d.All (fun _ => True) (fun _ => True) (python.loadsLimit frames) ∧
      python.loads frames text = .value d) ∨
    (¬ d.All (fun _ => True) (fun _ => True) (python.loadsLimit frames) ∧
      python.loads frames text = .recursionError)

end Interpreter

/-! ## 2. The server -/

def jsonrpc : List Nat := points "2.0"

def protocolVersions : List (List Nat) :=
  [points "2025-06-18", points "2025-03-26", points "2024-11-05"]

def parseError : Int := -32700

def invalidRequest : Int := -32600

def methodNotFound : Int := -32601

def invalidParams : Int := -32602

def unexpected : List Nat :=
  points "The tool failed unexpectedly; the manager's log on stderr has the details."

/-- How a handler comes back: data, a `ToolFailed`, or another exception. -/
inductive Outcome (E : Type) where
  | data (members : List (List Nat × Data))
  | toolFailed (message : List Nat)
  | raised (e : E)

/-- A tool as it is offered. -/
structure Tool (E : Type) where
  name : List Nat
  title : List Nat
  description : List Nat
  properties : List (List Nat × Data)
  handler : (turn : Nat) → List (List Nat × Data) → Outcome E
  required : List (List Nat) := []
  readOnly : Bool := false
  idempotent : Bool := false

/-- A member under a name of the source's. -/
def member (key : String) (d : Data) : List Nat × Data := (points key, d)

def truth (b : Bool) : Data := .scalar (.bool b)

section Tools

variable {E : Type}

def Tool.inputSchema (tool : Tool E) : Data :=
  .obj [member "type" (.str (points "object")),
    member "properties" (.obj tool.properties),
    member "required" (.arr (tool.required.map .str)),
    member "additionalProperties" (truth false)]

def Tool.listed (tool : Tool E) : Data :=
  .obj [member "name" (.str tool.name),
    member "title" (.str tool.title),
    member "description" (.str tool.description),
    member "inputSchema" tool.inputSchema,
    member "annotations" (.obj [member "title" (.str tool.title),
      member "readOnlyHint" (truth tool.readOnly),
      member "destructiveHint" (truth false),
      member "idempotentHint" (truth (tool.readOnly || tool.idempotent))])]

/-- `sorted(set(arguments) - set(self.properties))`. -/
def Tool.unknown (tool : Tool E) (arguments : List (List Nat × Data)) : List (List Nat) :=
  (((arguments.map Prod.fst).dedup.filter fun k => k ∉ tool.properties.map Prod.fst)).mergeSort
    fun a b => decide (a ≤ b)

/-- `value in (None, "")`. -/
def isEmpty : Option Data → Bool
  | none => true
  | some (.scalar .null) => true
  | some (.str []) => true
  | some _ => false

def Tool.missing (tool : Tool E) (arguments : List (List Nat × Data)) : List (List Nat) :=
  tool.required.filter fun k => isEmpty (get k arguments)

/-- `checked`: the message of the `ToolFailed` it raises. -/
def Tool.checked (tool : Tool E) (arguments : List (List Nat × Data)) : Option (List Nat) :=
  if tool.unknown arguments ≠ [] then
    some (tool.name ++ points " takes no " ++ (points ", ").intercalate (tool.unknown arguments) ++
      points ".")
  else if tool.missing arguments ≠ [] then
    some (tool.name ++ points " needs " ++ (points ", ").intercalate (tool.missing arguments)
      ++ points ".")
  else none

/-- A server and its tools. -/
structure Server (E : Type) where
  tools : List (Tool E)
  name : List Nat
  version : List Nat
  instructions : List Nat
  describe : E → Option (List Nat)

/-- A tool of a name already there takes its place. -/
def put (tool : Tool E) : List (Tool E) → List (Tool E)
  | [] => [tool]
  | other :: tools => if other.name = tool.name then tool :: tools else other :: put tool tools

/-- `Server.__init__`. -/
def Server.init (tools : List (Tool E)) (name version instructions : List Nat)
    (describe : E → Option (List Nat)) : Server E where
  tools := tools.foldl (fun kept tool => put tool kept) []
  name := name
  version := version
  instructions := instructions
  describe := describe

end Tools

/-- `_answer`'s two kinds of value. -/
inductive Answer where
  | failure (code : Int) (message : List Nat)
  | result (d : Data)

/-- The result of a tool that failed. -/
def failed (message : List Nat) : Data :=
  .obj [member "content" (.arr
    [.obj [member "type" (.str (points "text")), member "text" (.str message)]]),
    member "isError" (truth true)]

/-- An error in answer to a request. -/
def error (identifier : Data) (code : Int) (message : List Nat) : Data :=
  .obj [member "jsonrpc" (.str jsonrpc),
    member "id" identifier,
    member "error" (.obj [member "code" (.scalar (.int code)), member "message" (.str message)])]

def succeeded (identifier : Data) (answer : Data) : Data :=
  .obj [member "jsonrpc" (.str jsonrpc), member "id" identifier, member "result" answer]

/-- `if value`. -/
def truthy : Data → Bool
  | .scalar .null => false
  | .scalar (.bool b) => b
  | .scalar (.int n) => n ≠ 0
  | .scalar (.float x) => x.text ≠ "0.0".toList ∧ x.text ≠ "-0.0".toList
  | .str t => t ≠ []
  | .arr items => !items.isEmpty
  | .obj members => !members.isEmpty

/-- `value or {}`. -/
def orEmpty : Option Data → Data
  | none => .obj []
  | some d => if truthy d then d else .obj []

section Serving

variable {E : Type} (python : Interpreter) (server : Server E) (turn : Nat)

def Server.initialized (params : List (List Nat × Data)) : Data :=
  .obj [member "protocolVersion"
      (match get (points "protocolVersion") params with
        | some (.str asked) => if asked ∈ protocolVersions then .str asked
            else .str (points "2025-06-18")
        | _ => .str (points "2025-06-18")),
    member "capabilities" (.obj [member "tools" (.obj [member "listChanged" (truth false)])]),
    member "serverInfo" (.obj
    [member "name" (.str server.name), member "version" (.str server.version)]),
    member "instructions" (.str server.instructions)]

/-- `_called` from the tool on. -/
def Server.run (tool : Tool E) (params : List (List Nat × Data)) : Except Raised Answer :=
  match orEmpty (get (points "arguments") params) with
  | .obj arguments =>
    match tool.checked arguments with
    | some message => .ok (.result (failed message))
    | none =>
      match tool.handler turn arguments with
      | .toolFailed message => .ok (.result (failed message))
      | .raised e => .ok (.result (failed ((server.describe e).getD unexpected)))
      | .data data => do
        let text ← python.dumps 3 (.obj data)
        match python.loads 3 text with
        | .value back =>
          .ok (.result (.obj [
            member "content" (.arr [.obj
              [member "type" (.str (points "text")), member "text" (.str text)]]),
            member "structuredContent" back,
            member "isError" (truth false)]))
        | .valueError => .error .valueError
        | .recursionError => .error .recursionError
  | _ => .ok (.failure invalidParams (points "arguments must be an object"))

def unknownTool (name : List Nat) : Answer := .failure invalidParams (points "Unknown tool: " ++ name)

/-- `_called`. A list or an object has no hash to look it up by. -/
def Server.called (params : List (List Nat × Data)) : Except Raised Answer :=
  match get (points "name") params with
  | none =>
    match server.tools.find? (·.name = []) with
    | none => .ok (unknownTool (points "None"))
    | some tool => server.run python turn tool params
  | some (.str name) =>
    match server.tools.find? (·.name = name) with
    | none => .ok (unknownTool name)
    | some tool => server.run python turn tool params
  | some (.scalar a) => do
    let name ← str python.fits a
    .ok (unknownTool name)
  | some (.arr _) => .error .typeError
  | some (.obj _) => .error .typeError

def Server.answer (method : List Nat) (params : List (List Nat × Data)) : Except Raised Answer :=
  if method = points "initialize" then .ok (.result (server.initialized params))
  else if method = points "ping" then .ok (.result (.obj []))
  else if method = points "tools/list" then
    .ok (.result (.obj [member "tools" (.arr (server.tools.map Tool.listed))]))
  else if method = points "tools/call" then server.called python turn params
  else .ok (.failure methodNotFound (points "Method not found: " ++ method))

/-- `handle` for a message that is an object with an `id`, its method a string. -/
def Server.handleRequest (identifier : Data) (method : List Nat) (params : Data) : Except Raised Data :=
  match params with
  | .obj params => do
    let answer ← server.answer python turn method params
    match answer with
    | .failure code message => .ok (error identifier code message)
    | .result answer => .ok (succeeded identifier answer)
  | _ => .ok (error identifier invalidParams (points "params must be an object"))

/-- The method of a message that says it is a request. -/
def methodOf (members : List (List Nat × Data)) : Option (List Nat) :=
  match get (points "jsonrpc") members, get (points "method") members with
  | some (.str version), some (.str method) => if version = jsonrpc then some method else none
  | _, _ => none

/-- `_handle`: the answer, if there is one. -/
def Server.handle : (message : Data) → Except Raised (Option Data)
  | .obj members =>
    match methodOf members, get (points "id") members with
    | none, none => .ok none
    | none, some identifier => .ok (some (error identifier invalidRequest (points "Invalid request")))
    | some _, none => .ok none
    | some method, some identifier => do
      let reply ← server.handleRequest python turn identifier method
        (orEmpty (get (points "params") members))
      .ok (some reply)
  | _ => .ok (some (error (.scalar .null) invalidRequest (points "Invalid request")))

/-- `str.isspace`. -/
def isSpace (p : Nat) : Bool :=
  (9 ≤ p ∧ p ≤ 13) ∨ (28 ≤ p ∧ p ≤ 32) ∨ p = 0x85 ∨ p = 0xA0 ∨ p = 0x1680 ∨ (0x2000 ≤ p ∧ p ≤ 0x200A) ∨
    p = 0x2028 ∨ p = 0x2029 ∨ p = 0x202F ∨ p = 0x205F ∨ p = 0x3000

/-- `writing.write(json.dumps(reply) + "\n")`. -/
def Interpreter.write (reply : Data) : Except Raised (List Nat) := do
  let text ← python.dumps 0 reply
  if (text ++ points "\n").all python.encodes then .ok (text ++ points "\n")
    else .error .unicodeEncodeError

/-- The end of a turn of the loop of `serve`. -/
def Interpreter.send (reply : Option Data) : Except Raised (List (List Nat)) :=
  match reply with
  | none => .ok []
  | some reply => do
    let text ← python.write reply
    .ok [text]

/-- One turn of the loop of `serve`: what it writes, or what leaves it. -/
def Server.serveLine (line : List Nat) : Except Raised (List (List Nat)) :=
  if line.all isSpace then .ok []
  else do
    let reply ←
      match python.loads 0 line with
      | .valueError => .ok (some (error (.scalar .null) parseError (points "Parse error")))
      | .recursionError => .error .recursionError
      | .value message => server.handle python turn message
    python.send reply

/-- `serve`: what it wrote, and the exception that left it, if one did. -/
def Server.serve : (turn : Nat) → (reading : List (List Nat)) → List (List Nat) × Option Raised
  | _, [] => ([], none)
  | turn, line :: reading =>
    match server.serveLine python turn line with
    | .error e => ([], some e)
    | .ok written =>
      let (more, left) := serve (turn + 1) reading
      (written ++ more, left)

end Serving

/-! ## 3. What is asked of it -/

/-- The identifier of the one reply a line gets. -/
def owed (python : Interpreter) (line : List Nat) : Option Data :=
  if line.all isSpace then none
  else
    match python.loads 0 line with
    | .value (.obj members) => get (points "id") members
    | .value _ => some (.scalar .null)
    | .valueError => some (.scalar .null)
    | .recursionError => none

/-- A text that is a reply to a request of this identifier. -/
def Replies (python : Interpreter) (identifier : Data) (text : List Nat) : Prop :=
  ∃ members, get (points "id") members = some identifier ∧ python.write (.obj members) = .ok text

/-- **The server lives**: every line is read, and each gets the one reply it is owed, in their order. -/
def Lives (python : Interpreter) (reading : List (List Nat))
    (served : List (List Nat) × Option Raised) :
    Prop :=
  served.2 = none ∧ List.Forall₂ (Replies python) (reading.filterMap (owed python)) served.1

section Fitting

variable {E : Type} (python : Interpreter) (server : Server E) (turn : Nat)

/-- The tool's name and the arguments it complains of can be written. -/
def Complains (tool : Tool E) (names : List (List Nat)) : Prop :=
  python.Encodes tool.name ∧ ∀ k ∈ names, python.Encodes k

/-- What a handler comes back with can be written. -/
def FitsOutcome : Outcome E → Prop
  | .toolFailed message => python.Encodes message
  | .raised e => python.Encodes ((server.describe e).getD unexpected)
  | .data members =>
    Kind (fun _ => True) python.fits (python.dumpsLimit 3) (.obj members) ∧
      (Data.obj members).All (fun _ => True) (fun _ => True) (python.loadsLimit 3) ∧
      python.Writes 2 (.obj members)

def FitsRun (tool : Tool E) (params : List (List Nat × Data)) : Prop :=
  match orEmpty (get (points "arguments") params) with
  | .obj arguments =>
    if tool.unknown arguments ≠ [] then Complains python tool (tool.unknown arguments)
    else if tool.missing arguments ≠ [] then Complains python tool (tool.missing arguments)
    else FitsOutcome python server (tool.handler turn arguments)
  | _ => True

/-- A call by a name: no list and no object, and one that can be written if there is no such tool. -/
def FitsCall (params : List (List Nat × Data)) : Prop :=
  match get (points "name") params with
  | none => ∀ tool, server.tools.find? (·.name = []) = some tool →
    FitsRun python server turn tool params
  | some (.str name) =>
    match server.tools.find? (·.name = name) with
    | none => python.Encodes name
    | some tool => FitsRun python server turn tool params
  | some (.scalar (.int n)) => python.fits n = true
  | some (.scalar _) => True
  | some (.arr _) => False
  | some (.obj _) => False

/-- A tool whose description can be written. -/
def Listable (tool : Tool E) : Prop :=
  python.Encodes tool.name ∧ python.Encodes tool.title ∧ python.Encodes tool.description ∧
    (∀ k ∈ tool.required, python.Encodes k) ∧
    ∀ m ∈ tool.properties, python.Encodes m.1 ∧ python.Writes 6 m.2

def FitsMethod (method : List Nat) (params : List (List Nat × Data)) : Prop :=
  if method = points "initialize" then
    python.Encodes server.name ∧ python.Encodes server.version ∧ python.Encodes server.instructions
  else if method = points "ping" then True
  else if method = points "tools/list" then ∀ tool ∈ server.tools, Listable python tool
  else if method = points "tools/call" then FitsCall python server turn params
  else python.Encodes method

/-- A line the loop gets through: not too deep to be read, its identifier and the texts it asks for such
    as can be written, and no list and no object for a tool's name. -/
def Fits (line : List Nat) : Prop :=
  line.all isSpace = false →
    match python.loads 0 line with
    | .valueError => True
    | .recursionError => False
    | .value (.obj members) =>
      ∀ identifier, get (points "id") members = some identifier →
        python.Writes 1 identifier ∧
          ∀ method, methodOf members = some method →
            ∀ params, orEmpty (get (points "params") members) = .obj params →
              FitsMethod python server turn method params
    | .value _ => True

end Fitting

/-! ## 4. What can be written -/

section Writing

variable {python : Interpreter}

theorem encodes_points {s : String} (h : s.toList.all (fun c => c.toNat < 128) = true) :
    python.Encodes (points s) := points_kind python.ascii h

theorem encodes_append {a b : List Nat} :
    python.Encodes (a ++ b) ↔ python.Encodes a ∧ python.Encodes b := List.forall_mem_append

theorem encodes_joined (names : List (List Nat)) :
    python.Encodes ((points ", ").intercalate names) ↔ ∀ k ∈ names, python.Encodes k :=
  forall_intercalate (encodes_points (by decide)) names

variable {above : Nat}

theorem writes_str {t : List Nat} : python.Writes above (.str t) ↔ python.Encodes t := by
  rw [Interpreter.Writes, Kind, Data.All]
  rfl

theorem writes_int {n : Int} : python.Writes above (.scalar (.int n)) ↔ python.fits n = true := by
  rw [Interpreter.Writes, Kind, Data.All]

theorem writes_truth {b : Bool} : python.Writes above (truth b) := by
  rw [Interpreter.Writes, Kind, truth, Data.All]
  · trivial
  · intro n hkind
    cases hkind

theorem writes_null : python.Writes above (.scalar .null) := by
  rw [Interpreter.Writes, Kind, Data.All]
  · trivial
  · intro n hkind
    cases hkind

theorem limit_succ (h : above < 16) :
    python.dumpsLimit 0 - above = python.dumpsLimit 0 - (above + 1) + 1 := by
  have hroomy := python.roomy
  omega

theorem writes_arr (h : above < 16) {items : List Data} :
    python.Writes above (.arr items) ↔ ∀ v ∈ items, python.Writes (above + 1) v := by
  rw [Interpreter.Writes, Kind, limit_succ h, Data.All, allItems_iff]
  rfl

theorem writes_obj (h : above < 16) {members : List (List Nat × Data)} :
    python.Writes above (.obj members) ↔
      ∀ m ∈ members, python.Encodes m.1 ∧ python.Writes (above + 1) m.2 := by
  rw [Interpreter.Writes, Kind, limit_succ h, Data.All, allMembers_iff]
  rfl

/-- A member under a name of the source's is written if its value is. -/
theorem writes_member {key : String} {d : Data} {members : List (List Nat × Data)}
    (hkey : key.toList.all (fun c => c.toNat < 128) = true) :
    (∀ m ∈ member key d :: members, python.Encodes m.1 ∧ python.Writes above m.2) ↔
      python.Writes above d ∧ ∀ m ∈ members, python.Encodes m.1 ∧ python.Writes above m.2 := by
  rw [List.forall_mem_cons]
  exact and_congr_left' (and_iff_right (encodes_points hkey))

theorem writes_last {key : String} {d : Data}
    (hkey : key.toList.all (fun c => c.toNat < 128) = true) :
    (∀ m ∈ [member key d], python.Encodes m.1 ∧ python.Writes above m.2) ↔ python.Writes above d :=
  (writes_member hkey).trans (and_iff_left nofun)

variable {message : List Nat}

theorem writes_error {identifier : Data} {code : Int} :
    python.Writes 0 (error identifier code message) ↔
      python.Writes 1 identifier ∧ python.fits code = true ∧ python.Encodes message := by
  have hversion : python.Encodes jsonrpc := encodes_points (by decide)
  rw [error, writes_obj (by decide), writes_member (by decide), writes_member (by decide),
    writes_last (by decide), writes_obj (by decide), writes_member (by decide), writes_last (by decide),
    writes_str, writes_str, writes_int, and_iff_right hversion]

theorem writes_succeeded {identifier answer : Data} :
    python.Writes 0 (succeeded identifier answer) ↔ python.Writes 1 identifier ∧
      python.Writes 1 answer := by
  have hversion : python.Encodes jsonrpc := encodes_points (by decide)
  rw [succeeded, writes_obj (by decide), writes_member (by decide), writes_member (by decide),
    writes_last (by decide), writes_str, and_iff_right hversion]

/-- The one item of `content`. -/
theorem writes_content :
    python.Writes 2 (.arr [.obj [member "type" (.str (points "text")), member "text" (.str message)]]) ↔
      python.Encodes message := by
  have htext : python.Encodes (points "text") := encodes_points (by decide)
  rw [writes_arr (by decide), List.forall_mem_singleton, writes_obj (by decide),
    writes_member (by decide),
    writes_last (by decide), writes_str, writes_str, and_iff_right htext]

theorem writes_failed : python.Writes 1 (failed message) ↔ python.Encodes message := by
  rw [failed, writes_obj (by decide), writes_member (by decide), writes_last (by decide),
    writes_content,
    and_iff_left writes_truth]

theorem dumps_ok {frames : Nat} {d : Data} :
    (∃ text, python.dumps frames d = .ok text) ↔
      Kind (fun _ => True) python.fits (python.dumpsLimit frames) d := by
  rw [← dumps_kind (P := fun _ => True) (fun _ _ => trivial) python.fits]
  simp [Interpreter.dumps]

/-- The text of data that can be written can be, even as a string among other data. -/
theorem encodes_dumps {frames above : Nat} {d : Data} {text : List Nat}
    (h : python.dumps frames d = .ok text) (hd : python.Writes above d) : python.Encodes text := by
  have hdeep := dumps_ok.mp ⟨text, h⟩
  obtain ⟨text', h', htext⟩ :=
    (dumps_kind python.ascii python.fits _ d).mpr (Data.All.within d hd hdeep)
  cases h.symm.trans h'
  exact htext

theorem write_ok {reply : Data} : (∃ text, python.write reply = .ok text) ↔ python.Writes 0 reply := by
  rw [Interpreter.Writes, ← dumps_kind python.ascii python.fits]
  constructor
  · intro ⟨text, h⟩
    rw [Interpreter.write] at h
    cases hdumps : python.dumps 0 reply with
    | error e =>
      rw [hdumps] at h
      exact nomatch h
    | ok t =>
      simp only [hdumps, bind, Except.bind] at h
      split at h
      · rename_i hall
        exact ⟨t, hdumps, fun p hp => List.all_eq_true.mp hall p (List.mem_append_left _ hp)⟩
      · exact nomatch h
  · intro ⟨text, h, htext⟩
    have hall : (text ++ points "\n").all python.encodes = true :=
      List.all_eq_true.mpr (encodes_append.mpr ⟨htext, encodes_points (by decide)⟩)
    refine ⟨text ++ points "\n", ?_⟩
    rw [Interpreter.write, show python.dumps 0 reply = .ok text from h]
    exact if_pos hall

end Writing

/-! ## 5. One line -/

section Line

variable {E : Type} {python : Interpreter} {server : Server E} {turn : Nat}

/-- An answer that can be written. -/
def Answer.Writes (python : Interpreter) : Answer → Prop
  | .failure code message => python.fits code = true ∧ python.Encodes message
  | .result d => python.Writes 1 d

theorem ok_iff {α : Type} {a : α} {Q : α → Prop} :
    (∃ b, (Except.ok a : Except Raised α) = .ok b ∧ Q b) ↔ Q a :=
  ⟨fun ⟨_, h, hq⟩ => Except.ok.inj h ▸ hq, fun h => ⟨a, rfl, h⟩⟩

theorem raised_iff {α : Type} {e : Raised} {Q : α → Prop} :
    (∃ b, (Except.error e : Except Raised α) = .ok b ∧ Q b) ↔ False :=
  iff_false_intro fun ⟨_, h, _⟩ => nomatch h

variable {tool : Tool E}

theorem complains_iff {names : List (List Nat)} {text : String}
    (htext : text.toList.all (fun c => c.toNat < 128) = true) :
    python.Encodes (tool.name ++ points text ++ (points ", ").intercalate names ++ points ".") ↔
      Complains python tool names := by
  rw [encodes_append, encodes_append, encodes_append, encodes_joined, Complains,
    and_iff_left (encodes_points (by decide)), and_iff_left (encodes_points htext)]

variable {params : List (List Nat × Data)}

/-- What a handler came back with, as `_called` hands it on. -/
theorem outcome_fits {arguments : List (List Nat × Data)} (hchecked : tool.checked arguments = none)
    (hback : ∀ members, tool.handler turn arguments = .data members → python.ReadsBack 3 (.obj members))
    (hparams : orEmpty (get (points "arguments") params) = .obj arguments) :
    (∃ a, server.run python turn tool params = .ok a ∧ a.Writes python) ↔
      FitsOutcome python server (tool.handler turn arguments) := by
  rw [Server.run, hparams]
  simp only [hchecked]
  cases hcame : tool.handler turn arguments with
  | toolFailed _ | raised _ => exact ok_iff.trans writes_failed
  | data members =>
    rw [FitsOutcome, ← dumps_ok]
    cases hdumps : python.dumps 3 (.obj members) with
    | error e =>
      simp only [bind, Except.bind, hdumps]
      exact raised_iff.trans (iff_false_intro fun ⟨⟨_, h⟩, _⟩ => nomatch h).symm
    | ok text =>
      rcases hback members hcame text hdumps with ⟨hdeep, hloads⟩ | ⟨hdeep, hloads⟩
      · refine Iff.trans ?_ (and_iff_right ⟨text, rfl⟩).symm
        refine Iff.trans ?_ (and_iff_right hdeep).symm
        simp only [bind, Except.bind, hdumps, hloads]
        refine ok_iff.trans ?_
        rw [Answer.Writes, writes_obj (by decide), writes_member (by decide), writes_member (by decide),
          writes_last (by decide), writes_content, and_iff_left writes_truth]
        exact and_iff_right_of_imp fun h => encodes_dumps hdumps h
      · simp only [bind, Except.bind, hdumps, hloads]
        exact raised_iff.trans (iff_false_intro fun ⟨_, h, _⟩ => hdeep h).symm

/-- Every tool's data come back from `json.loads` as they went into `json.dumps`. -/
def ReadBack (python : Interpreter) (server : Server E) : Prop :=
  ∀ tool ∈ server.tools, ∀ turn arguments members, tool.handler turn arguments = .data members →
    python.ReadsBack 3 (.obj members)

theorem run_fits (hback : ReadBack python server) (htool : tool ∈ server.tools)
    :
    (∃ a, server.run python turn tool params = .ok a ∧ a.Writes python) ↔
      FitsRun python server turn tool params := by
  have hother : ∀ {a}, server.run python turn tool params = .ok a →
      a = .failure invalidParams (points "arguments must be an object") →
      FitsRun python server turn tool params →
      ((∃ a, server.run python turn tool params = .ok a ∧ a.Writes python) ↔
        FitsRun python server turn tool params) := by
    intro a ha hfailure hfits
    subst hfailure
    exact iff_of_true ⟨_, ha, python.small _ (by decide), encodes_points (by decide)⟩ hfits
  cases hparams : orEmpty (get (points "arguments") params) with
  | scalar _ | str _ | arr _ =>
    refine hother ?_ rfl ?_
    · rw [Server.run, hparams]
    · rw [FitsRun, hparams]
      trivial
  | obj arguments =>
    rw [FitsRun, hparams]
    simp only
    split
    · rename_i hunknown
      have hchecked : tool.checked arguments = some _ := if_pos hunknown
      rw [Server.run, hparams]
      simp only [hchecked]
      exact ok_iff.trans (writes_failed.trans (complains_iff (by decide)))
    rename_i hunknown
    split
    · rename_i hmissing
      have hchecked : tool.checked arguments = some _ := (if_neg hunknown).trans (if_pos hmissing)
      rw [Server.run, hparams]
      simp only [hchecked]
      exact ok_iff.trans (writes_failed.trans (complains_iff (by decide)))
    · rename_i hmissing
      have hchecked : tool.checked arguments = none := (if_neg hunknown).trans (if_neg hmissing)
      exact outcome_fits hchecked (hback tool htool turn arguments) hparams

theorem unknownTool_writes {name : List Nat} :
    (unknownTool name).Writes python ↔ python.Encodes name := by
  rw [unknownTool, Answer.Writes, encodes_append, and_iff_right (encodes_points (by decide))]
  exact and_iff_right (python.small _ (by decide))

/-- The text of a number or a constant is ASCII. -/
theorem str_writes {a : Scalar} {name : List Nat} (h : str python.fits a = .ok name) :
    python.Encodes name := by
  have htext : ∀ a : Scalar, python.Encodes (a.text.map Char.toNat) := fun a =>
    tokens_kind python.ascii a.text_tokens
  cases a with
  | null => cases h; exact encodes_points (by decide)
  | bool b => cases b <;> cases h <;> exact encodes_points (by decide)
  | int n =>
    rw [str] at h
    split at h
    · cases h
      exact htext (.int n)
    · exact nomatch h
  | float x =>
    rw [str] at h
    split at h
    · cases h; exact encodes_points (by decide)
    split at h
    · cases h; exact encodes_points (by decide)
    split at h
    · cases h; exact encodes_points (by decide)
    · cases h
      exact htext (.float x)

theorem scalar_fits {a : Scalar} :
    (∃ b, (do
        let name ← str python.fits a
        Except.ok (unknownTool name)) = .ok b ∧ b.Writes python) ↔
      ∃ name, str python.fits a = .ok name := by
  cases hstr : str python.fits a with
  | error e => exact raised_iff.trans (iff_false_intro fun ⟨_, h⟩ => nomatch h).symm
  | ok name => exact iff_of_true ⟨_, rfl, unknownTool_writes.mpr (str_writes hstr)⟩ ⟨name, rfl⟩

theorem called_fits (hback : ReadBack python server) :
    (∃ a, server.called python turn params = .ok a ∧ a.Writes python) ↔
      FitsCall python server turn params := by
  have hfound : ∀ {name tool}, server.tools.find? (·.name = name) = some tool → tool ∈ server.tools :=
    fun h => List.mem_of_find?_eq_some h
  rw [Server.called, FitsCall]
  cases get (points "name") params with
  | none =>
    simp only
    cases htool : server.tools.find? (·.name = []) with
    | none =>
      refine iff_of_true ⟨_, rfl, unknownTool_writes.mpr (encodes_points (by decide))⟩ nofun
    | some tool =>
      refine (run_fits hback (hfound htool)).trans ⟨fun h other hother => ?_, fun h => h tool rfl⟩
      cases hother
      exact h
  | some name =>
    cases name with
    | str name =>
      simp only
      cases htool : server.tools.find? (·.name = name) with
      | none => exact ok_iff.trans unknownTool_writes
      | some tool => exact run_fits hback (hfound htool)
    | scalar a =>
      simp only
      refine scalar_fits.trans ?_
      cases a with
      | null => exact iff_of_true ⟨_, rfl⟩ trivial
      | bool b => cases b <;> exact iff_of_true ⟨_, rfl⟩ trivial
      | int n =>
        rw [str]
        split
        · rename_i hn
          exact iff_of_true ⟨_, rfl⟩ hn
        · rename_i hn
          exact iff_of_false (fun ⟨_, h⟩ => nomatch h) hn
      | float x =>
        refine iff_of_true ?_ trivial
        rw [str]
        split_ifs <;> exact ⟨_, rfl⟩
    | arr items => exact raised_iff
    | obj members => exact raised_iff

theorem inputSchema_writes :
    python.Writes 4 tool.inputSchema ↔
      (∀ m ∈ tool.properties, python.Encodes m.1 ∧ python.Writes 6 m.2) ∧
        ∀ k ∈ tool.required, python.Encodes k := by
  rw [Tool.inputSchema, writes_obj (by decide), writes_member (by decide), writes_member (by decide),
    writes_member (by decide), writes_last (by decide), writes_str, writes_obj (by decide),
    writes_arr (by decide), List.forall_mem_map, and_iff_right (encodes_points (by decide)),
    and_iff_left writes_truth]
  exact and_congr_right' (forall₂_congr fun k _ => writes_str)

theorem listed_writes : python.Writes 3 tool.listed ↔ Listable python tool := by
  rw [Tool.listed, Listable, writes_obj (by decide), writes_member (by decide),
    writes_member (by decide),
    writes_member (by decide), writes_member (by decide), writes_last (by decide), inputSchema_writes,
    writes_str, writes_str, writes_str, writes_obj (by decide), writes_member (by decide),
    writes_member (by decide), writes_member (by decide), writes_last (by decide), writes_str,
    and_iff_right writes_truth, and_iff_right writes_truth, and_iff_left writes_truth]
  constructor
  · intro ⟨hname, htitle, hdescription, ⟨hproperties, hrequired⟩, _⟩
    exact ⟨hname, htitle, hdescription, hrequired, hproperties⟩
  · intro ⟨hname, htitle, hdescription, hrequired, hproperties⟩
    exact ⟨hname, htitle, hdescription, ⟨hproperties, hrequired⟩, htitle⟩

/-- Whatever version is asked for, one of the server's own is named. -/
theorem version_writes {above : Nat} :
    python.Writes above (match get (points "protocolVersion") params with
      | some (.str asked) => if asked ∈ protocolVersions then .str asked else .str (points "2025-06-18")
      | _ => .str (points "2025-06-18")) := by
  have hlatest : python.Writes above (.str (points "2025-06-18")) :=
    writes_str.mpr (encodes_points (by decide))
  split
  · split
    · rename_i asked hasked
      simp only [protocolVersions, List.mem_cons, List.not_mem_nil, or_false] at hasked
      rcases hasked with rfl | rfl | rfl <;> exact writes_str.mpr (encodes_points (by decide))
    · exact hlatest
  · exact hlatest

theorem initialized_writes :
    python.Writes 1 (server.initialized params) ↔
      python.Encodes server.name ∧ python.Encodes server.version ∧
      python.Encodes server.instructions := by
  rw [Server.initialized, writes_obj (by decide), writes_member (by decide), writes_member (by decide),
    writes_member (by decide), writes_last (by decide), and_iff_right version_writes,
    writes_obj (by decide), writes_last (by decide), writes_obj (by decide), writes_last (by decide),
    and_iff_right writes_truth, writes_obj (by decide), writes_member (by decide),
    writes_last (by decide),
    writes_str, writes_str, writes_str, and_assoc]

theorem answer_fits (hback : ReadBack python server) {method : List Nat}
    :
    (∃ a, server.answer python turn method params = .ok a ∧ a.Writes python) ↔
      FitsMethod python server turn method params := by
  rw [Server.answer, FitsMethod]
  split
  · exact ok_iff.trans initialized_writes
  split
  · refine ok_iff.trans (iff_true_intro ?_)
    exact (writes_obj (by decide)).mpr nofun
  split
  · refine ok_iff.trans ?_
    rw [Answer.Writes, writes_obj (by decide), writes_last (by decide), writes_arr (by decide),
      List.forall_mem_map]
    exact forall₂_congr fun tool _ => listed_writes
  split
  · exact called_fits hback
  · refine ok_iff.trans ?_
    rw [Answer.Writes, encodes_append, and_iff_right (encodes_points (by decide))]
    exact and_iff_right (python.small _ (by decide))

theorem handleRequest_fits (hback : ReadBack python server) {identifier : Data} {method : List Nat}
    {params : Data} :
    (∃ r, server.handleRequest python turn identifier method params = .ok r ∧ python.Writes 0 r) ↔
      python.Writes 1 identifier ∧
        ∀ members, params = .obj members → FitsMethod python server turn method members := by
  have hother : (∀ members, params ≠ .obj members) →
      server.handleRequest python turn identifier method params =
        .ok (error identifier invalidParams (points "params must be an object")) →
      ((∃ r, server.handleRequest python turn identifier method params = .ok r ∧ python.Writes 0 r) ↔
        python.Writes 1 identifier ∧
          ∀ members, params = .obj members → FitsMethod python server turn method members) := by
    intro hne h
    rw [h]
    refine ok_iff.trans (writes_error.trans (and_congr_right' ?_))
    refine iff_of_true ⟨python.small _ (by decide), encodes_points (by decide)⟩ ?_
    exact fun members hmembers => absurd hmembers (hne members)
  cases params with
  | scalar _ | str _ | arr _ => exact hother nofun rfl
  | obj params =>
    have hparams : (∀ members, Data.obj params = .obj members →
        FitsMethod python server turn method members) ↔ FitsMethod python server turn method params :=
      ⟨fun h => h params rfl, fun h members hmembers => by cases hmembers; exact h⟩
    rw [hparams, ← answer_fits hback, Server.handleRequest]
    cases server.answer python turn method params with
    | error e => exact iff_of_false (fun ⟨_, h, _⟩ => nomatch h) fun ⟨_, _, h, _⟩ => nomatch h
    | ok answer =>
      rw [ok_iff]
      cases answer with
      | failure code message => exact ok_iff.trans writes_error
      | result d => exact ok_iff.trans writes_succeeded

/-- A reply that can be written, if there is one. -/
def Sends (python : Interpreter) (reply : Option Data) : Prop := ∀ r, reply = some r → python.Writes 0 r

theorem sends_some {r : Data} : Sends python (some r) ↔ python.Writes 0 r :=
  ⟨fun h => h r rfl, fun h _ hr => Option.some.inj hr ▸ h⟩

theorem handle_fits (hback : ReadBack python server) {members : List (List Nat × Data)} :
    (∃ reply, server.handle python turn (.obj members) = .ok reply ∧ Sends python reply) ↔
      ∀ identifier, get (points "id") members = some identifier →
        python.Writes 1 identifier ∧
          ∀ method, methodOf members = some method →
            ∀ params, orEmpty (get (points "params") members) = .obj params →
              FitsMethod python server turn method params := by
  rw [Server.handle]
  cases get (points "id") members with
  | none =>
    cases methodOf members with
    | none | some _ => exact iff_of_true ⟨none, rfl, nofun⟩ nofun
  | some identifier =>
    cases methodOf members with
    | none =>
      refine (ok_iff.trans sends_some).trans (writes_error.trans ?_)
      rw [and_iff_left ⟨python.small _ (by decide), encodes_points (by decide)⟩]
      exact ⟨fun h _ hsame => ⟨Option.some.inj hsame ▸ h, nofun⟩, fun h => (h identifier rfl).1⟩
    | some method =>
      have hrequest := @handleRequest_fits E python server turn hback identifier method
        (orEmpty (get (points "params") members))
      constructor
      · intro ⟨reply, h, hsends⟩ _ hsame
        cases hsame
        simp only [bind, Except.bind] at h
        split at h
        · exact nomatch h
        · rename_i r hr
          cases h
          obtain ⟨hid, hmethod⟩ := hrequest.mp ⟨r, hr, sends_some.mp hsends⟩
          exact ⟨hid, fun _ hsame => Option.some.inj hsame ▸ hmethod⟩
      · intro h
        obtain ⟨hid, hmethod⟩ := h identifier rfl
        obtain ⟨r, hr, hwrites⟩ := hrequest.mpr ⟨hid, hmethod method rfl⟩
        refine ⟨some r, ?_, sends_some.mpr hwrites⟩
        simp only [bind, Except.bind, hr]

theorem send_ok {reply : Option Data} :
    (∃ written, python.send reply = .ok written) ↔ Sends python reply := by
  cases reply with
  | none => exact iff_of_true ⟨[], rfl⟩ nofun
  | some r =>
    rw [sends_some, ← write_ok, Interpreter.send]
    cases python.write r with
    | error e => exact iff_of_false (fun ⟨_, h⟩ => nomatch h) fun ⟨_, h⟩ => nomatch h
    | ok text => exact iff_of_true ⟨_, rfl⟩ ⟨_, rfl⟩

/-- **One line**: the loop gets through it exactly when it `Fits`. -/
theorem serveLine_fits (hback : ReadBack python server) {line : List Nat} :
    (∃ written, server.serveLine python turn line = .ok written) ↔ Fits python server turn line := by
  rw [Server.serveLine, Fits]
  split
  · rename_i hblank
    exact iff_of_true ⟨[], rfl⟩ fun h => Bool.noConfusion (hblank.symm.trans h)
  rename_i hline
  rw [forall_prop_of_true (Bool.eq_false_iff.mpr hline)]
  have hsimple : ∀ code message, python.fits code = true → python.Encodes message →
      ∃ written, python.send (some (error (.scalar .null) code message)) = .ok written :=
      fun _ _ hc hm =>
    send_ok.mpr (sends_some.mpr (writes_error.mpr ⟨writes_null, hc, hm⟩))
  cases python.loads 0 line with
  | valueError =>
    exact iff_of_true (hsimple _ _ (python.small _ (by decide)) (encodes_points (by decide))) trivial
  | recursionError => exact iff_of_false (fun ⟨_, h⟩ => nomatch h) id
  | value message =>
    cases message with
    | scalar _ | str _ | arr _ =>
      exact iff_of_true (hsimple _ _ (python.small _ (by decide)) (encodes_points (by decide))) trivial
    | obj members =>
      refine Iff.trans ?_ (handle_fits hback)
      simp only
      cases server.handle python turn (.obj members) with
      | error e => exact iff_of_false (fun ⟨_, h⟩ => nomatch h) fun ⟨_, h, _⟩ => nomatch h
      | ok reply => exact send_ok.trans ok_iff.symm

theorem error_identifier {identifier : Data} {code : Int} {message : List Nat} :
    ∃ members, error identifier code message = .obj members ∧
      get (points "id") members = some identifier :=
  ⟨_, rfl, rfl⟩

theorem handleRequest_identifier {identifier : Data} {method : List Nat} {params r : Data}
    (h : server.handleRequest python turn identifier method params = .ok r) :
    ∃ members, r = .obj members ∧ get (points "id") members = some identifier := by
  cases params with
  | obj params =>
    simp only [Server.handleRequest, bind, Except.bind] at h
    split at h
    · exact nomatch h
    split at h
    · cases h
      exact error_identifier
    · cases h
      exact ⟨_, rfl, rfl⟩
  | scalar _ | str _ | arr _ => cases h; exact error_identifier

/-- The reply to a message, if there is one, carries the identifier of the message, if it has one. -/
theorem handle_owed {members : List (List Nat × Data)} {reply : Option Data}
    (h : server.handle python turn (.obj members) = .ok reply) :
    (reply = none ∧ get (points "id") members = none) ∨
      ∃ identifier answered, reply = some (.obj answered) ∧
        get (points "id") members = some identifier ∧ get (points "id") answered = some identifier := by
  rw [Server.handle] at h
  split at h
  · rename_i hid
    cases h
    exact Or.inl ⟨rfl, hid⟩
  · rename_i identifier _ hid
    cases h
    exact Or.inr ⟨identifier, _, rfl, hid, rfl⟩
  · rename_i hid
    cases h
    exact Or.inl ⟨rfl, hid⟩
  · rename_i method identifier _ hid
    simp only [bind, Except.bind] at h
    split at h
    · exact nomatch h
    · rename_i r hr
      cases h
      obtain ⟨answered, rfl, hanswered⟩ := handleRequest_identifier hr
      exact Or.inr ⟨identifier, answered, rfl, hid, hanswered⟩

theorem send_some {identifier : Data} {answered : List (List Nat × Data)}
    (hid : get (points "id") answered = some identifier) {written : List (List Nat)}
    (h : python.send (some (.obj answered)) = .ok written) :
    List.Forall₂ (Replies python) [identifier] written := by
  rw [Interpreter.send] at h
  cases hwrite : python.write (.obj answered) with
  | error e =>
    simp only [bind, Except.bind, hwrite] at h
    exact nomatch h
  | ok text =>
    simp only [bind, Except.bind, hwrite] at h
    cases h
    exact .cons ⟨answered, hid, hwrite⟩ .nil

/-- And then it has written the one reply that the line is owed. -/
theorem serveLine_owed {line : List Nat} {written : List (List Nat)}
    (h : server.serveLine python turn line = .ok written) :
    List.Forall₂ (Replies python) (owed python line).toList written := by
  rw [Server.serveLine] at h
  rw [owed]
  split
  · rename_i hblank
    rw [if_pos hblank] at h
    cases h
    exact .nil
  rename_i hline
  rw [if_neg hline] at h
  cases hloads : python.loads 0 line with
  | valueError =>
    rw [hloads] at h
    exact send_some rfl h
  | recursionError =>
    rw [hloads] at h
    exact nomatch h
  | value message =>
    rw [hloads] at h
    cases message with
    | scalar a => exact send_some rfl h
    | str t => exact send_some rfl h
    | arr items => exact send_some rfl h
    | obj members =>
      simp only [bind, Except.bind] at h
      split at h
      · exact nomatch h
      rename_i reply hreply
      rcases handle_owed hreply with ⟨rfl, hnone⟩ | ⟨identifier, answered, rfl, hid, hanswered⟩
      · cases h
        simp only [hnone]
        exact .nil
      · simp only [hid]
        exact send_some hanswered h

end Line

/-! ## 6. A run -/

section Run

variable {E : Type} {python : Interpreter} {server : Server E}

/-- What is asked of the lines of a run, turn by turn. -/
theorem fits_cons {turn : Nat} {line : List Nat} {reading : List (List Nat)} :
    (∀ i l, (line :: reading)[i]? = some l → Fits python server (turn + i) l) ↔
      Fits python server turn line ∧
        ∀ i l, reading[i]? = some l → Fits python server (turn + 1 + i) l := by
  constructor
  · intro h
    refine ⟨h 0 line rfl, fun i l hl => ?_⟩
    have hnext := h (i + 1) l hl
    rwa [show turn + (i + 1) = turn + 1 + i by omega] at hnext
  · intro ⟨hfirst, hrest⟩ i l hl
    cases i with
    | zero => exact Option.some.inj hl ▸ hfirst
    | succ i =>
      rw [show turn + (i + 1) = turn + 1 + i by omega]
      exact hrest i l hl

theorem serve_left (hback : ReadBack python server) (turn : Nat) (reading : List (List Nat)) :
    (server.serve python turn reading).2 = none ↔
      ∀ i line, reading[i]? = some line → Fits python server (turn + i) line := by
  induction reading generalizing turn with
  | nil => exact iff_of_true rfl nofun
  | cons line reading ih =>
    rw [fits_cons, ← ih, ← serveLine_fits hback, Server.serve]
    cases server.serveLine python turn line with
    | error e => exact iff_of_false nofun fun ⟨⟨_, h⟩, _⟩ => nomatch h
    | ok written => exact (and_iff_right ⟨written, rfl⟩).symm

theorem serve_replies {turn : Nat} {reading : List (List Nat)}
    (h : (server.serve python turn reading).2 = none) :
    List.Forall₂ (Replies python) (reading.filterMap (owed python))
      (server.serve python turn reading).1 := by
  induction reading generalizing turn with
  | nil => exact .nil
  | cons line reading ih =>
    rw [Server.serve] at h ⊢
    cases hline : server.serveLine python turn line with
    | error e =>
      rw [hline] at h
      exact nomatch h
    | ok written =>
      rw [hline] at h
      have hrest := ih h
      have hfirst := serveLine_owed hline
      cases howed : owed python line with
      | none =>
        rw [howed] at hfirst
        cases hfirst
        rw [List.filterMap_cons_none howed]
        exact hrest
      | some identifier =>
        rw [howed] at hfirst
        cases hfirst with
        | cons hreply hnil =>
          cases hnil
          rw [List.filterMap_cons_some howed]
          exact .cons hreply hrest

/-- **No line ends the server**, in a run whose lines fit, and in no other: every line is read, and each
    request with an identifier has the one reply that carries it. -/
theorem serve_lives (hback : ReadBack python server) (reading : List (List Nat)) :
    Lives python reading (server.serve python 0 reading) ↔
      ∀ turn line, reading[turn]? = some line → Fits python server turn line := by
  have hleft := serve_left hback 0 reading
  simp only [Nat.zero_add] at hleft
  exact ⟨fun h => hleft.mp h.1, fun h => ⟨hleft.mpr h, serve_replies (hleft.mpr h)⟩⟩

end Run

/-- CPython with its usual limits, on the texts it is shown here. -/
def cpython (shown : List (List Nat × Data)) : Interpreter where
  loads _ text :=
    match shown.lookup text with
    | some d => .value d
    | none => .valueError
  loadsLimit _ := 900
  dumpsLimit _ := 900
  fits n := decide (n.natAbs < 10 ^ 4300)
  encodes p := decide (p < 0xD800 ∨ (0xE000 ≤ p ∧ p < 0x110000))
  roomy := by decide
  small n h := decide_eq_true (Nat.lt_of_lt_of_le h
    (Nat.pow_le_pow_right (n := 10) (by decide) (show 5 ≤ 4300 by decide)))
  ascii p h := decide_eq_true (Or.inl (Nat.lt_trans h (by decide)))

def statusData : List (List Nat × Data) := [member "ok" (truth true)]

def statusTool : Tool Unit where
  name := points "status"
  title := points "Status"
  description := points "How the manager is."
  properties := []
  handler _ _ := .data statusData

def statusServer : Server Unit :=
  Server.init [statusTool] (points "django-dbs") (points "1") (points "Ask.") fun _ => none

/-- A call of a tool, by whatever `name` is. -/
def callOf (name : Data) : Data :=
  .obj [member "jsonrpc" (.str jsonrpc), member "id" (.scalar (.int 1)),
    member "method" (.str (points "tools/call")), member "params" (.obj [member "name" name])]

def statusLine : List Nat :=
  points "\x7b\"jsonrpc\":\"2.0\",\"id\":1,\"method\":\"tools/call\",\"params\":\x7b\"name\":\"status\"\x7d\x7d\n"

def listLine : List Nat :=
  points "\x7b\"jsonrpc\":\"2.0\",\"id\":1,\"method\":\"tools/call\",\"params\":\x7b\"name\":[]\x7d\x7d\n"

def shown : List (List Nat × Data) :=
  [(statusLine, callOf (.str (points "status"))), (listLine, callOf (.arr [])),
    (points "\x7b\"ok\": true\x7d", .obj statusData)]

theorem status_readBack : ReadBack (cpython shown) statusServer := by
  intro tool htool turn arguments members hcame text htext
  cases List.mem_singleton.mp htool
  cases hcame
  cases htext
  exact Or.inl ⟨⟨⟨trivial, trivial⟩, trivial⟩, rfl⟩

/-- A call of a tool by its name, served. -/
theorem serve_lives_status :
    Lives (cpython shown) [statusLine] (statusServer.serve (cpython shown) 0 [statusLine]) := by
  refine (serve_lives status_readBack [statusLine]).mpr fun turn line hline => ?_
  have hsame : line = statusLine := by
    cases turn with
    | zero => exact (Option.some.inj hline).symm
    | succ turn => exact nomatch hline
  subst hsame
  intro _
  have hloads : (cpython shown).loads 0 statusLine = .value (callOf (.str (points "status"))) := rfl
  rw [hloads]
  intro identifier hid
  cases hid
  refine ⟨writes_int.mpr ((cpython shown).small 1 (by decide)), fun method hmethod params hparams => ?_⟩
  cases hmethod
  cases hparams
  have hnodup : ([] : List (List Nat)).dedup = [] := rfl
  have hunknown : ¬ statusTool.unknown [] ≠ [] := by simp [Tool.unknown, hnodup]
  have hmissing : ¬ statusTool.missing [] ≠ [] := not_not.mpr rfl
  rw [FitsMethod, if_neg (by decide), if_neg (by decide), if_neg (by decide), if_pos rfl]
  show if statusTool.unknown [] ≠ [] then Complains _ _ _ else if statusTool.missing [] ≠ [] then
    Complains _ _ _ else FitsOutcome (cpython shown) statusServer (.data statusData)
  rw [if_neg hunknown, if_neg hmissing]
  refine ⟨dumps_ok.mp ⟨_, rfl⟩, ⟨⟨trivial, trivial⟩, trivial⟩, ?_⟩
  exact (writes_obj (by decide)).mpr ((writes_last (by decide)).mpr writes_truth)

/-- **A tool's name that is a list ends the server**: nothing is written for this line, and the next
    one is not read. -/
theorem serve_list :
    statusServer.serve (cpython shown) 0 [listLine, statusLine] = ([], some .typeError) ∧
      ¬ Lives (cpython shown) [listLine, statusLine]
        (statusServer.serve (cpython shown) 0 [listLine, statusLine]) := by
  have hserved : statusServer.serve (cpython shown) 0
    [listLine, statusLine] = ([], some .typeError) := rfl
  exact ⟨hserved, fun h => nomatch h.1⟩

end Dbs.Mcp
