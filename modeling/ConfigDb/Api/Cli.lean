import ConfigDb.Api.Session

/-!
# The command line tool

The tool (`src/cli/main.cpp`) performs one action, over a connection of its own, and prints what
comes of it.  It does not use `src/api/api.cpp`: `src/cli/client/client.cpp` has checks of its own
for the responses, and each check that fails has its own exit code.

When the server cannot be talked to, the exception is caught, and the exit code is the one of
success.

## Main definitions

* `Cli.Args.parse` : the checks of the command line.
* `Cli.Action.perform` : what an action makes of a response.
* `Cli.main` : the tool, over the network.

## Main results

* `Cli.perform_spec` : the checks of the tool agree with those of the client library.
* `cli_transparent` : the tool does what it is asked for on the store itself.
-/

namespace ConfigDb

open Api

namespace Cli

/-! ### The command line -/

/-- What the tool is asked for; a file that cannot be opened has no lines. -/
inductive Action
  | get (key : Bytes)
  | list (path : Bytes)
  | set (key value : Bytes)
  | move (key dest : Bytes)
  | remove (key : Bytes)
  | importFile (file : Bytes) (lines : Option (List Bytes))

/-- The operation of an action. -/
def Action.operation : Action → Operation
  | .get key => .get key
  | .list path => .list path
  | .set key value => .set ⟨key, value, {}⟩
  | .move key dest => .move ⟨key, dest, {}⟩
  | .remove key => .remove key
  | .importFile _ lines => .importFile lines

/-- The options of the command line that say what to do. -/
structure Args where
  /-- `--file`. -/
  file : Bytes := []
  /-- `--action`. -/
  action : Bytes := []
  /-- `--key`. -/
  key : Bytes := []
  /-- `--value`. -/
  value : Bytes := []

/-- The checks of `main`: the action, or what is printed instead of it. -/
def Args.parse (usage : Bytes) (files : Bytes → Option (List Bytes)) (args : Args) :
    Except Bytes Action :=
  -- with a file the other options are ignored
  if args.file ≠ [] then .ok (.importFile args.file (files args.file))
  else if args.action = [] then .error (text "Action not specified\n" ++ usage)
  else if args.action ∉ [text "delete", text "get", text "list", text "move", text "set"] then
    .error (text "Unsupported action\nValid values get|set|move|list|delete\n")
  else if args.key = [] then .error (text "Key not specified\n" ++ usage)
  else if args.action = text "set" ∧ args.value = [] then
    .error (text "Value not specified\n" ++ usage)
  else if args.action = text "move" ∧ args.value = [] then
    .error (text "Destination key not specified\n" ++ usage)
  else if args.action = text "get" then .ok (.get args.key)
  else if args.action = text "list" then .ok (.list args.key)
  else if args.action = text "set" then .ok (.set args.key args.value)
  else if args.action = text "move" then .ok (.move args.key args.value)
  else .ok (.remove args.key)

/-! ### The checks of the responses -/

/-- The checks of a response with one result: the exit code and what is printed, or `none` if they
read through null.  `mismatch` is printed for a response of another variant. -/
def result (error mismatch : Bytes) (read : KeyValueResultTable → Option (ℕ × Bytes)) :
    Option ResponseTable → Option (ℕ × Bytes)
  | none => some (1, error)
  | some (.keyValueResults table) => do
    match ← (← table).value with
    | [r] => read r
    | _ => return (3, error)
  | some _ => some (2, mismatch)

/-- The checks of a response that says whether a mutation was successful. -/
def success (error done : Bytes) : Option ResponseTable → Option (ℕ × Bytes)
  | none => some (1, error)
  | some (.success table) => table.map fun t => if t.value then (0, done) else (3, error)
  | some _ => some (2, error)

/-- `client::get`. -/
def get (key : Bytes) : Option ResponseTable → Option (ℕ × Bytes) :=
  let error := text "Error retrieving key " ++ key ++ text "\n"
  result error error fun r => match r.value with
    | .value table => do return (0, (← (← table).value) ++ text "\n")
    | _ => some (4, error)

/-- What is printed for some names. -/
def lines (names : List Bytes) : Bytes := names.flatMap fun v => v ++ text "\n"

/-- `client::list`. -/
def list (path : Bytes) : Option ResponseTable → Option (ℕ × Bytes) :=
  let error := text "Error listing path " ++ path ++ text "\n"
  result error (text "Error retrieving path " ++ path ++ text "\n") fun r => match r.value with
    | .children table => do
      match ← (← table).value with
      | [] => return (5, error)
      | names => return (0, lines names)
    | _ => some (4, error)

/-- `client::set`. -/
def set (key : Bytes) : Option ResponseTable → Option (ℕ × Bytes) :=
  success (text "Error setting key " ++ key ++ text "\n")
    (text "Set value for key " ++ key ++ text "\n")

/-- `client::move`. -/
def move (key dest : Bytes) : Option ResponseTable → Option (ℕ × Bytes) :=
  success (text "Error moving key " ++ key ++ text " to " ++ dest ++ text "\n")
    (text "Moved key " ++ key ++ text " to " ++ dest ++ text "\n")

/-- `client::remove`. -/
def remove (key : Bytes) : Option ResponseTable → Option (ℕ × Bytes) :=
  success (text "Error removing key " ++ key ++ text "\n") (text "Removed key " ++ key ++ text "\n")

/-- What is printed of the counts of an import. -/
def counts (file : Bytes) (count total : UInt32) : Bytes :=
  text " (" ++ toString count.toNat ++ text "/" ++ toString total.toNat ++
    text ") keys from file " ++ file ++ text "\n"

/-- `client::import`. -/
def importFile (file : Bytes) (count total : UInt32) :
    Option ResponseTable → Option (ℕ × Bytes) :=
  success (text "Error importing" ++ counts file count total)
    (text "Imported" ++ counts file count total)

/-- What an action makes of a response, which may be a null pointer. -/
def Action.perform : Action → Option ResponseTable → Option (ℕ × Bytes)
  | .get key => Cli.get key
  | .list path => Cli.list path
  | .set key _ => Cli.set key
  | .move key dest => Cli.move key dest
  | .remove key => Cli.remove key
  | .importFile file (some lines) =>
    Cli.importFile file (.ofNat (lines.filterMap parseLine).length) (.ofNat lines.length)
  -- a file that cannot be opened is not sent
  | .importFile file none => fun _ => Cli.importFile file 0 0 none

/-! ### The tool -/

/-- How the tool ends. -/
inductive Exit
  /-- It waits for a read. -/
  | waits
  /-- It reads through null. -/
  | crashes
  /-- It exits with a code, after it has printed something. -/
  | exits (code : ℕ) (out : Bytes)
  deriving DecidableEq

/-- The end of an action that has a response. -/
def Exit.of : Option (ℕ × Bytes) → Exit
  | some (code, out) => .exits code out
  | none => .crashes

/-- The end of an action after its call. -/
def Action.conclude (a : Action) : Option (Option ResponseTable) → Exit
  -- the exception is caught, and printed elsewhere
  | none => .exits 0 []
  | some response => .of (a.perform response)

/-- An action on a connection that is open, valid and empty, over a benign network: the store
afterwards, and how the tool ends. -/
def Action.run (fb : Flatbuffers) (logged : Bool) (env : Env) (cfg : Config) (a : Action)
    (s : Db) : Db × Exit :=
  match a.operation.request with
  | none => (s, .of (a.perform none))
  | some request =>
    if (fb.encodeRequest request).length < maxBufferSize then
      let reads := fullReads bufSize (frame (fb.encodeRequest request))
      let answer := Server.answers fb env cfg s (ConfigDb.Connection.run .idle reads).2
      (answer.1, match writeImpl logged fb.verify {}
          { arrived answer.2 with request := fb.encodeRequest request } with
        | none => .waits
        | some o => a.conclude (fb.response o.result))
    else (s, .crashes)

/-- `main`. -/
def main (fb : Flatbuffers) (logged : Bool) (env : Env) (cfg : Config) (usage : Bytes)
    (files : Bytes → Option (List Bytes)) (args : Args) (s : Db) : Db × Exit :=
  match args.parse usage files with
  | .ok a => a.run fb logged env cfg s
  | .error out => (s, .exits 1 out)

/-! ### What the tool is asked for -/

/-- What an action prints when its operation has been successful. -/
def Action.done : Action → Api.Answer → Option Bytes
  | .get _, .value (some v) => some (v ++ text "\n")
  | .list _, .nodes (some names) => some (lines names)
  | .set key _, .bool true => some (text "Set value for key " ++ key ++ text "\n")
  | .move key dest, .bool true =>
    some (text "Moved key " ++ key ++ text " to " ++ dest ++ text "\n")
  | .remove key, .bool true => some (text "Removed key " ++ key ++ text "\n")
  | .importFile file _, .imported (true, count, total) =>
    some (text "Imported" ++ counts file count total)
  | _, _ => none

/-- An exit tells what an operation returns: the code is the one of success if and only if the
operation has been successful, and then what is printed is what the operation has found. -/
def Exit.Tells (a : Action) (answer : Api.Answer) (e : Exit) : Prop :=
  ∃ code out, e = .exits code out ∧ (code = 0 ↔ (a.done answer).isSome) ∧
    ∀ out' ∈ a.done answer, out = out'

section

variable {a : Action} {answer : Api.Answer} {r : Option ResponseTable}

theorem Exit.tells_of_done {out : Bytes} (h : a.done answer = some out) :
    (Exit.exits 0 out).Tells a answer :=
  ⟨0, out, rfl, by simp [h], fun out' hout => by
    rw [h] at hout
    exact Option.some.inj hout⟩

theorem Exit.tells_of_none {code : ℕ} {out : Bytes} (h : a.done answer = none)
    (hcode : code ≠ 0) : (Exit.exits code out).Tells a answer :=
  ⟨code, out, rfl, by simp [h, hcode], fun out' hout => by
    rw [h] at hout
    cases hout⟩

theorem success_spec {error done : Bytes} {b : Bool} (h : succeeded r = some b) :
    (b = true ∧ success error done r = some (0, done)) ∨
      (b = false ∧ ∃ code, code ≠ 0 ∧ success error done r = some (code, error)) := by
  cases r with
  | none =>
    obtain rfl := Option.some.inj h
    exact .inr ⟨rfl, 1, by decide, rfl⟩
  | some t =>
    cases t with
    | success table =>
      cases table with
      | none => cases h
      | some t =>
        obtain rfl := Option.some.inj h
        cases hb : t.value with
        | true => exact .inl ⟨rfl, by simp [success, hb]⟩
        | false => exact .inr ⟨rfl, 3, by decide, by simp [success, hb]⟩
    | keyValueResults table =>
      obtain rfl := Option.some.inj h
      exact .inr ⟨rfl, 2, by decide, rfl⟩
    | other =>
      obtain rfl := Option.some.inj h
      exact .inr ⟨rfl, 2, by decide, rfl⟩

theorem tells_of_success {error done : Bytes} {f : Bool → Api.Answer}
    (hdone : a.done (f true) = some done) (hnone : a.done (f false) = none)
    (h : (succeeded r).map f = some answer) : (Exit.of (success error done r)).Tells a answer := by
  obtain ⟨b, hb, rfl⟩ := Option.map_eq_some_iff.1 h
  rcases @success_spec r error done b hb with ⟨rfl, heq⟩ | ⟨rfl, code, hcode, heq⟩
  · rw [heq]
    exact Exit.tells_of_done hdone
  · rw [heq]
    exact Exit.tells_of_none hnone hcode

theorem result_spec {α : Type} {failure : α} {error mismatch : Bytes}
    {read : KeyValueResultTable → Option (ℕ × Bytes)}
    {read' : List KeyValueResultTable → Option α} {f : α → Api.Answer}
    (hnone : a.done (f failure) = none)
    (hread : ∀ e v, read' [e] = some v → (Exit.of (read e)).Tells a (f v))
    (h : (results 1 failure read' r).map f = some answer) :
    (Exit.of (result error mismatch read r)).Tells a answer := by
  cases r with
  | none =>
    obtain rfl := Option.some.inj h
    exact Exit.tells_of_none hnone (by decide)
  | some t =>
    cases t with
    | success table =>
      obtain rfl := Option.some.inj h
      exact Exit.tells_of_none hnone (by decide)
    | other =>
      obtain rfl := Option.some.inj h
      exact Exit.tells_of_none hnone (by decide)
    | keyValueResults table =>
      rcases table with _ | ⟨_ | value⟩
      · cases h
      · cases h
      · rcases value with _ | ⟨e, _ | ⟨e', l⟩⟩
        · obtain rfl := Option.some.inj h
          exact Exit.tells_of_none hnone (by decide)
        · obtain ⟨v, hv, rfl⟩ := Option.map_eq_some_iff.1 h
          exact hread e v hv
        · have hanswer : answer = f failure := by
            simpa [results, eq_comm] using h
          rw [hanswer]
          exact Exit.tells_of_none hnone (by decide)

theorem get_spec {key : Bytes} (h : (Api.get r).map Api.Answer.value = some answer) :
    (Exit.of (get key r)).Tells (.get key) answer := by
  refine result_spec rfl (fun e v hv => ?_) h
  obtain ⟨k, table⟩ := e
  rcases table with (_ | ⟨_ | v⟩) | _ | _ | _
  · cases hv
  · cases hv
  · obtain rfl := Option.some.inj hv
    exact Exit.tells_of_done rfl
  all_goals
    obtain rfl := Option.some.inj hv
    exact Exit.tells_of_none rfl (by decide)

theorem list_spec {path : Bytes} (h : (Api.list r).map Api.Answer.nodes = some answer) :
    (Exit.of (list path r)).Tells (.list path) answer := by
  cases r with
  -- the client library does not check the response, and the tool does
  | none => cases h
  | some t =>
    refine result_spec rfl (fun e v hv => ?_) h
    obtain ⟨k, table⟩ := e
    rcases table with _ | (_ | ⟨_ | _ | ⟨name, names⟩⟩) | _ | _
    case children.some.some.cons =>
      obtain rfl := Option.some.inj hv
      exact Exit.tells_of_done rfl
    case children.none => cases hv
    case children.some.none => cases hv
    all_goals
      obtain rfl := Option.some.inj hv
      exact Exit.tells_of_none rfl (by decide)

/-- **The checks of the tool agree with those of the client library**, for every response that these
do not read through null. -/
theorem perform_spec (h : a.operation.interpret r = some answer) :
    (Exit.of (a.perform r)).Tells a answer := by
  cases a with
  | get key => exact get_spec h
  | list path => exact list_spec h
  | set key value => exact tells_of_success rfl rfl h
  | move key dest => exact tells_of_success rfl rfl h
  | remove key => exact tells_of_success rfl rfl h
  | importFile file lines =>
    cases lines with
    | none =>
      obtain rfl := Option.some.inj h
      exact Exit.tells_of_none rfl (by decide)
    | some lines =>
      have h' : (succeeded r).map (fun b => Api.Answer.imported (b,
          UInt32.ofNat (lines.filterMap parseLine).length, UInt32.ofNat lines.length)) =
          some answer := by
        rw [← h]
        cases hs : succeeded r <;> simp [Action.operation, Operation.interpret, Api.importFile, hs]
      exact tells_of_success rfl rfl h'

end

section

variable {fb : Flatbuffers} {logged : Bool} {env : Env} {cfg : Config} {s s' : Db}

theorem of_eq_returns {o : Option Api.Answer} {answer : Api.Answer}
    (h : End.of o = .returns answer) : o = some answer := by
  cases o with
  | none => cases h
  | some a =>
    obtain rfl := End.returns.inj h
    rfl

theorem run_of_remote (a : Action) {answer : Api.Answer}
    (h : a.operation.remote fb logged env cfg s = (s', .returns answer)) :
    ∃ r, a.operation.interpret r = some answer ∧
      a.run fb logged env cfg s = (s', .of (a.perform r)) := by
  unfold Operation.remote at h
  unfold Action.run
  cases hreq : a.operation.request with
  | none =>
    simp only [hreq, Operation.run] at h
    obtain ⟨rfl, hend⟩ := Prod.mk.inj h
    exact ⟨none, of_eq_returns hend, rfl⟩
  | some request =>
    simp only [hreq, Operation.run] at h
    split_ifs at h with hsize
    · obtain ⟨rfl, hend⟩ := Prod.mk.inj h
      simp only [if_pos hsize]
      cases hw : writeImpl logged fb.verify {} { arrived (Server.answers fb env cfg s
          (ConfigDb.Connection.run .idle (fullReads bufSize
            (frame (fb.encodeRequest request)))).2).2 with
              request := fb.encodeRequest request } with
      | none =>
        rw [hw] at hend
        cases hend
      | some o =>
        rw [hw] at hend
        dsimp only at hend
        cases hr : fb.response o.result with
        | none =>
          rw [hr] at hend
          cases hend
        | some r =>
          rw [hr] at hend
          refine ⟨r, of_eq_returns hend, ?_⟩
          simp only [Action.conclude, hr]
    · cases (Prod.mk.inj h).2

end

end Cli

open Cli

/-- **The command line tool does what it is asked for on the store itself**, if its messages fit,
whatever fails at the server: it leaves the store as the call of its operation does, its exit code
is the one of success if and only if the operation has been successful, and then it prints what the
operation has found.  A command line that asks for nothing leaves the store alone. -/
theorem cli_transparent (fb : Flatbuffers) (logged : Bool) (env : Env) (cfg : Config)
    (usage : Bytes) (files : Bytes → Option (List Bytes)) (args : Args) (s : Db) :
    (∀ a, args.parse usage files = .ok a → a.operation.Fits fb env cfg s →
      (Cli.main fb logged env cfg usage files args s).1 = (a.operation.direct env cfg s).1 ∧
        (Cli.main fb logged env cfg usage files args s).2.Tells a
          (a.operation.direct env cfg s).2) ∧
      ∀ out, args.parse usage files = .error out →
        Cli.main fb logged env cfg usage files args s = (s, .exits 1 out) := by
  refine ⟨fun a hparse hfits => ?_, fun out hparse => ?_⟩
  · obtain ⟨r, hr, hrun⟩ := run_of_remote a (Operation.remote_eq fb logged hfits)
    simp only [Cli.main, hparse, hrun]
    exact ⟨trivial, perform_spec hr⟩
  · simp only [Cli.main, hparse]

/-- A value is set, and the tool says so. -/
theorem cli_transparent_set :
    let v : Bytes := [97, 97, 97, 97]
    let args : Args := { action := text "set", key := text "/a", value := v }
    (Cli.main (.about v) true (Env.reliable fun n => n) (.plain false) [] (fun _ => none) args
      (Db.init 1)).2 = .exits 0 (text "Set value for key /a\n") := by
  intro v args
  have hparse : args.parse [] (fun _ => none) = .ok (.set (text "/a") v) := rfl
  obtain ⟨-, code, out, hexit, hcode, hout⟩ := (cli_transparent (.about v) true
    (Env.reliable fun n => n) (.plain false) [] (fun _ => none) args (Db.init 1)).1 _ hparse
      fits_two.1
  have hdone : (Action.set (text "/a") v).done ((Action.set (text "/a") v).operation.direct
      (Env.reliable fun n => n) (.plain false) (Db.init 1)).2 =
      some (text "Set value for key /a\n") := by decide +kernel
  rw [hdone] at hcode hout
  rw [hexit, hcode.2 rfl, hout _ rfl]

end ConfigDb
