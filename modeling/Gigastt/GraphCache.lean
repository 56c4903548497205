import Gigastt.Transition
import Mathlib.Data.List.Pairwise
import Mathlib.Logic.Function.Basic

/-!
The cache of optimized encoder graphs, which loads in any number of processes fill and use while the
encoder's source is replaced and entries are pruned. A graph is staged beside the cache and published
by a rename, if the source still has the digest that the load started with. A process may die with its
loads, and another one take over its id.
-/

namespace Gigastt.GraphCache

open Transition

/-- What a load depends on: the digest of a self-contained source, the graph that is optimized from a
source, and, for each load, its settings and its process. Of the processes with one id, no two live at
one time. -/
structure Runtime (Content Hash Settings Graph : Type) where
  /-- `optimized_source_hash`. -/
  sourceHash : Content → Option Hash
  optimize : Content → Settings → Graph
  settings : Nat → Settings
  pid : Nat → Nat
  /-- How many processes have had the id before. -/
  generation : Nat → Nat

/-- A file with a graph. It is torn until it is written to its end. -/
inductive Stored (Graph : Type) where
  | torn
  | whole (graph : Graph)
  deriving DecidableEq

/-- The name of a staging file: that of its entry, and what `PendingCache::new` appends. -/
structure File (Hash Settings : Type) where
  entry : Hash × Settings
  pid : Nat
  id : Nat
  deriving DecidableEq

/-- Where a load stands. -/
inductive Phase (Content Hash Settings Graph : Type) where
  | idle
  | hashed (hash : Hash)
  | missed (hash : Hash)
  | staged (file : File Hash Settings)
  /-- The source is read. -/
  | compiling (file : File Hash Settings) (source : Content)
  | compiled (file : File Hash Settings) (source : Content)
  /-- The digest has been found unchanged. -/
  | checked (file : File Hash Settings) (source : Content)
  /-- The session is there, and the staging file is to be removed. -/
  | dropping (file : File Hash Settings)
  | plain
  /-- The session comes from the cache. -/
  | served (hash : Hash) (graph : Stored Graph)
  deriving DecidableEq

def Phase.file {Content Hash Settings Graph : Type} :
    Phase Content Hash Settings Graph → Option (File Hash Settings)
  | .staged file | .compiling file _ | .compiled file _ | .checked file _ | .dropping file => some file
  | .idle | .hashed _ | .missed _ | .plain | .served _ _ => none

/-- The source and what it was before, the last first; the cache; the staging files; by process id, the
next number of a staging file and how many processes have died. -/
structure State (Content Hash Settings Graph : Type) where
  source : Content
  former : List Content
  cache : Hash × Settings → Option (Stored Graph)
  staging : File Hash Settings → Option (Stored Graph)
  nextId : Nat → Nat
  generation : Nat → Nat
  phase : Nat → Phase Content Hash Settings Graph

inductive Call where
  /-- By the load or, earlier, by its caller. -/
  | hash
  /-- An entry may fail to load. -/
  | lookUp (readable : Bool)
  | stage
  /-- No staging file can be created. -/
  | unstaged
  | read
  | written
  /-- The graph or its publication fails. -/
  | fail
  | check
  | rename
  | drop
  deriving DecidableEq

inductive Action (Content Hash Settings : Type) where
  | replace (content : Content)
  | prune (entry : Hash × Settings)
  /-- A process dies, with the loads of it. -/
  | die (pid : Nat)
  | call (load : Nat) (call : Call)

variable {Content Hash Settings Graph : Type} [DecidableEq Hash] [DecidableEq Settings]

namespace State

variable (s : State Content Hash Settings Graph)

def start (content : Content) : State Content Hash Settings Graph where
  source := content
  former := []
  cache := fun _ => none
  staging := fun _ => none
  nextId := fun _ => 0
  generation := fun _ => 0
  phase := fun _ => .idle

def goto (load : Nat) (phase : Phase Content Hash Settings Graph) : State Content Hash Settings Graph :=
  { s with phase := Function.update s.phase load phase }

def put (file : File Hash Settings) (stored : Option (Stored Graph)) :
    State Content Hash Settings Graph :=
  { s with staging := Function.update s.staging file stored }

/-- `fetch_add`. -/
def count (pid : Nat) : State Content Hash Settings Graph :=
  { s with nextId := Function.update s.nextId pid (s.nextId pid + 1) }

def die (pid : Nat) : State Content Hash Settings Graph :=
  { s with
    generation := Function.update s.generation pid (s.generation pid + 1)
    nextId := Function.update s.nextId pid 0 }

def publish (entry : Hash × Settings) (stored : Option (Stored Graph)) :
    State Content Hash Settings Graph :=
  { s with cache := Function.update s.cache entry stored }

end State

section

variable (rt : Runtime Content Hash Settings Graph) (s : State Content Hash Settings Graph)

/-- The process of a load is the one that lives now. -/
def Live (i : Nat) : Prop := rt.generation i = s.generation (rt.pid i)

instance (i : Nat) : Decidable (Live rt s i) :=
  inferInstanceAs (Decidable (rt.generation i = s.generation (rt.pid i)))

def pendingFile (i : Nat) (hash : Hash) : File Hash Settings where
  entry := (hash, rt.settings i)
  pid := rt.pid i
  id := s.nextId (rt.pid i)

/-- What a load does next. -/
def load (i : Nat) : Call → Option (State Content Hash Settings Graph)
  | .hash =>
      match s.phase i with
      | .idle =>
          match rt.sourceHash s.source with
          | some hash => some (s.goto i (.hashed hash))
          | none => some (s.goto i .plain)
      | _ => none
  | .lookUp readable =>
      match s.phase i with
      | .hashed hash =>
          match s.cache (hash, rt.settings i) with
          | some stored => some (s.goto i (if readable then .served hash stored else .missed hash))
          | none => some (s.goto i (.missed hash))
      | _ => none
  | .stage =>
      match s.phase i with
      | .missed hash =>
          -- `create_new` takes no name that exists, such as one that a process with this id has left
          match s.staging (pendingFile rt s i hash) with
          | some _ => some (s.count (rt.pid i))
          | none =>
              some (((s.count (rt.pid i)).put (pendingFile rt s i hash) (some .torn)).goto i
                (.staged (pendingFile rt s i hash)))
      | _ => none
  | .unstaged =>
      match s.phase i with
      | .missed _ => some (s.goto i .plain)
      | _ => none
  | .read =>
      match s.phase i with
      | .staged file => some (s.goto i (.compiling file s.source))
      | _ => none
  | .written =>
      match s.phase i with
      | .compiling file source =>
          some ((s.put file (some (.whole (rt.optimize source (rt.settings i))))).goto i
            (.compiled file source))
      | _ => none
  | .fail =>
      match s.phase i with
      | .staged file | .compiling file _ | .compiled file _ | .checked file _ =>
          some (s.goto i (.dropping file))
      | _ => none
  | .check =>
      match s.phase i with
      | .compiled file source =>
          some (s.goto i (if rt.sourceHash s.source = some file.entry.1 then .checked file source
            else .dropping file))
      | _ => none
  | .rename =>
      match s.phase i with
      | .checked file _ =>
          some (((s.publish file.entry (s.staging file)).put file none).goto i (.dropping file))
      | _ => none
  | .drop =>
      match s.phase i with
      | .dropping file => some ((s.put file none).goto i .plain)
      | _ => none

def step : Action Content Hash Settings → Option (State Content Hash Settings Graph)
  | .replace content =>
      some { s with source := content, former := s.source :: s.former }
  | .prune entry => some (s.publish entry none)
  | .die pid => some (s.die pid)
  | .call i call => if Live rt s i then load rt s i call else none

/-- A source that is put in the place of another has not been there before: with a digest that comes
back, the check of a load cannot see what was compiled in between. -/
def Fresh : Action Content Hash Settings → Prop
  | .replace content =>
      ∀ earlier ∈ s.source :: s.former,
        rt.sourceHash content ≠ none → rt.sourceHash earlier ≠ rt.sourceHash content
  | .prune _ | .die _ | .call _ _ => True

instance (action : Action Content Hash Settings) : Decidable (Fresh rt s action) :=
  match action with
  | .replace content => inferInstanceAs (Decidable (∀ earlier ∈ s.source :: s.former,
      rt.sourceHash content ≠ none → rt.sourceHash earlier ≠ rt.sourceHash content))
  | .prune _ | .die _ | .call _ _ => .isTrue trivial

end

/-- A whole graph of a source with the digest and under the settings of its entry. -/
def Runtime.Right (rt : Runtime Content Hash Settings Graph) (hash : Hash) (settings : Settings)
    (stored : Stored Graph) : Prop :=
  ∃ content, rt.sourceHash content = some hash ∧ stored = .whole (rt.optimize content settings)

end Gigastt.GraphCache
