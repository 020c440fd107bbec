import ClomDB.Library.Dialogue
import ClomDB.Linearization

/-!
# The command line

The program of `clomdb_cli.cpp` on a directory that other processes have used
before. One command or a session prints what a plain map prints, and the map it
ends with is the one that the next `Open` gets.

## Implementation notes

What `operator<<` writes is recorded in the order of the calls. The replies of the
database are an input of the program, so it is a dialogue. A refused write leaves
the map alone, and its error text is the only thing the map does not decide.
-/

namespace ClomDB

open Std FaultProgram FileSystem FileSystem.World DB SharedObject SharedObject.Dialogue

/-- What is written to a stream at once. -/
inductive Printed where
  | out (ts : List Text)
  | err (ts : List Text)
  deriving DecidableEq, Repr

/-- No method has another reply than its own. -/
def Reply.asStatus : Reply → Status
  | .status s => s
  | _ => .OK

def Reply.asValue : Reply → Except Status Bytes
  | .value r => r
  | _ => .ok []

def Reply.asIterator : Reply → Iterator
  | .iterator it => it
  | _ => .ofSnapshot ∅

def Reply.asStats : Reply → Stats
  | .stats s => s
  | _ => {}

namespace Threads

/-- A process that opens a new database, writes to it once and closes it. -/
theorem putRun : ∃ s s' t, ∃ m : Threads Unit, s.ok = true ∧ t ≤ 1 ∧
    Run Env.hostile AtomicWhole [0x64] (start ⟨false, ∅⟩) (.restart :: marks
      [(.write {} (WriteBatch.put {} [0x61] [0x78]), .status s), (.close, .status s')]) t m := by
  obtain ⟨m, db, s, m', db', s', t, m'', s'', hopened, hdb, hset, hwritten, hdb', hok, hopen, hclosed,
    hshut, ht⟩ := firstSession_steps
  have hfree : (start ⟨false, ∅⟩ : Threads Unit).Free :=
    ⟨fun _ => rfl, trivial, fun db hdb => (by cases hdb)⟩
  have hstarted := Run.start.step (Step.opens hfree hopened)
  have hcalled := hstarted.step (@Step.calls _ _ _ _ _ _ ()
    (.write {} (WriteBatch.put {} [0x61] [0x78])) db hdb rfl (by simp))
  have hwrote := hcalled.step (Step.operates (i := ()) hdb rfl (by simp [move])
    (hwritten AtomicWhole hset))
  have hreplied := hwrote.step (Step.returns (i := ()) (r := .status s') rfl)
  have hclosing := hreplied.step (@Step.calls _ _ _ _ _ _ () .close db' hdb' rfl (by simp [move]))
  have hbegun : Op.prog 20 [0x64] .closeBegin m'.db m'.world [] =
      .returned (.OK, some db'.closeBegin) m'.world [] 0 := by rw [hdb']; rfl
  have hbegan := hclosing.step (Step.begins (i := ()) hdb' rfl hopen
    (.returned (Env.admits_nil _) ⟨trivial, trivial⟩ hbegun))
  have hworker : ∀ n : Bool, (if n then (Worker.started true m.db).notified else
      Worker.started true m.db).notified = .tests := by
    rw [hdb]
    intro n
    cases n <;> rfl
  have hjoined := hbegan.step (Step.exits rfl (hworker _) hshut)
  have hended := hjoined.step (Step.operates (i := ()) rfl rfl (fun _ => trivial) hclosed)
  have hrun := hended.step (Step.returns (i := ()) (r := .status s'') rfl)
  exact ⟨s', s'', _, _, hok, by omega, hrun⟩

end Threads

namespace Cli

abbrev Program (α : Type) := Dialogue Call Reply Printed α

def number (n : UInt64) : Text := .lit (toString n.toNat)

def okay : Printed := .out [.lit "OK\n"]

def failed (s : Status) : Printed := .err (.lit "error: " :: s.toString ++ [.lit "\n"])

/-- The end of a command that only has a status. -/
def report (s : Status) : Program Nat := do
  if !s.ok then
    print (failed s)
    return 1
  print okay
  return 0

/-- A value that is found. -/
def line (value : Bytes) : Printed := .out [.bytes value, .lit "\n"]

def notFound : Printed := .out [.lit "(not found)\n"]

/-- The end of `get`. -/
def reportValue : Except Status Bytes → Program Nat
  | .ok value => do
      print (line value)
      return 0
  | .error s => do
      if s.isNotFound then
        print notFound
        return 0
      print (failed s)
      return 1

def printAll : List Printed → Program Unit
  | [] => return
  | x :: xs => do
      print x
      printAll xs

/-- One line of `scan`. -/
def binding (p : Bytes × Bytes) : Printed :=
  .out [.bytes p.1, .lit " = ", .bytes p.2, .lit "\n"]

/-- The lines of `stats`. -/
def statistics (stats : Stats) : List Printed :=
  .out [.lit "memtable: ", number stats.memtableEntries, .lit " entries, ",
    number stats.memtableBytes, .lit " bytes\n"] ::
  (List.finRange kMaxLevels).filterMap fun lvl =>
    if stats.filesPerLevel lvl = 0 then none
    else some (.out [.lit "L", .lit (toString lvl.val), .lit ": ", number (stats.filesPerLevel lvl),
      .lit " files, ", number (stats.bytesPerLevel lvl), .lit " bytes\n"])

def helpText : Printed :=
  .out [.lit "commands: put <k> <v> | get <k> | delete <k> | scan | flush | stats | help | exit\n"]

def unrecognized (cmd : Bytes) : Printed :=
  .err [.lit "unrecognized command (try 'help'): ", .bytes cmd, .lit "\n"]

def put : Bytes := ascii ['p', 'u', 't']
def get : Bytes := ascii ['g', 'e', 't']
def delete : Bytes := ascii ['d', 'e', 'l', 'e', 't', 'e']
def del : Bytes := ascii ['d', 'e', 'l']
def scan : Bytes := ascii ['s', 'c', 'a', 'n']
def flush : Bytes := ascii ['f', 'l', 'u', 's', 'h']
def stats : Bytes := ascii ['s', 't', 'a', 't', 's']
def help : Bytes := ascii ['h', 'e', 'l', 'p']
def exit : Bytes := ascii ['e', 'x', 'i', 't']
def quit : Bytes := ascii ['q', 'u', 'i', 't']

/-- `RunOne`. -/
def runOne (args : List Bytes) : Program Nat := do
  if args.isEmpty then return 0
  let arg (i : Nat) : Bytes := args.getD i []
  let cmd := arg 0
  if cmd = put ∧ args.length = 3 then
    report (← request (.write {} (WriteBatch.put {} (arg 1) (arg 2)))).asStatus
  else if cmd = get ∧ args.length = 2 then
    reportValue (← request (.get (arg 1))).asValue
  else if (cmd = delete ∨ cmd = del) ∧ args.length = 2 then
    report (← request (.write {} (WriteBatch.delete {} (arg 1)))).asStatus
  else if cmd = scan ∧ args.length = 1 then
    let it := (← request .newIterator).asIterator.seekToFirst
    printAll ((it.drain it.snapshot.size).map binding)
    return 0
  else if cmd = flush ∧ args.length = 1 then
    report (← request .flush).asStatus
  else if cmd = stats ∧ args.length = 1 then
    printAll (statistics (← request .getStats).asStats)
    return 0
  else if cmd = help then
    print helpText
    return 0
  else
    print (unrecognized cmd)
    return 1

/-- `isspace` in the locale of a program that sets none. -/
def isSpace (b : UInt8) : Bool := b == 0x20 || 0x09 ≤ b && b ≤ 0x0d

/-- `SplitLine`. -/
def splitLine (line : Bytes) : List Bytes := (line.splitOnP isSpace).filter fun tok => !tok.isEmpty

/-- The lines that `std::getline` reads until it fails. The last one may miss its end. -/
def linesOf (input : Bytes) : List Bytes :=
  let lines := input.splitOnP (· == 0x0a)
  if lines.getLast? = some [] then lines.dropLast else lines

def prompt : Printed := .out [.lit "clomdb> "]

/-- The loop of `main`. -/
def repl : List Bytes → Program Unit
  | [] => print prompt
  | line :: lines => do
      print prompt
      let args := splitLine line
      if args.isEmpty then repl lines
      else if args.getD 0 [] = exit ∨ args.getD 0 [] = quit then return
      else
        let _ ← runOne args
        repl lines

def greeting (path : Bytes) : Printed :=
  .out [.lit "ClomDB CLI -- database at ", .bytes path,
    .lit " ('help' for commands, 'exit' to quit)\n"]

def usage (name : Bytes) : Printed :=
  .err [.lit "usage: ", .bytes name, .lit " <db_path> [command args...]\n"]

/-- `main`, where `s` is what `DB::Open` returns. -/
def main (argv : List Bytes) (s : Status) (input : Bytes) : Program Nat := do
  if argv.length < 2 then
    print (usage (argv.getD 0 []))
    return 2
  if !s.ok then
    print (.err (.lit "failed to open db: " :: s.toString ++ [.lit "\n"]))
    return 1
  let rc ← if 2 < argv.length then runOne (argv.drop 2) else do
    print (greeting (argv.getD 1 []))
    repl (linesOf input)
    pure 0
  -- the destructor calls `Close`
  let _ ← request .close
  return rc

/-- The commands with a fixed number of arguments. -/
def arities : List (Bytes × Nat) :=
  [(put, 2), (get, 1), (delete, 1), (del, 1), (scan, 0), (flush, 0), (stats, 0)]

/-- What a command prints on a plain map, what it returns and what it makes of the map. -/
inductive Shows (m : ExtTreeMap Bytes Bytes) :
    List Bytes → List Printed → Nat → ExtTreeMap Bytes Bytes → Prop where
  | put (key value : Bytes) : Shows m [put, key, value] [okay] 0 (m.insert key value)
  | putFailed (key value : Bytes) (s : Status) : Shows m [Cli.put, key, value] [failed s] 1 m
  | got {key value : Bytes} (found : m[key]? = some value) : Shows m [get, key] [line value] 0 m
  | missing {key : Bytes} (absent : m[key]? = none) : Shows m [get, key] [notFound] 0 m
  | delete {cmd : Bytes} (key : Bytes) (named : cmd = delete ∨ cmd = del) :
      Shows m [cmd, key] [okay] 0 (m.erase key)
  | deleteFailed {cmd : Bytes} (key : Bytes) (s : Status) (named : cmd = Cli.delete ∨ cmd = del) :
      Shows m [cmd, key] [failed s] 1 m
  | scan : Shows m [scan] (m.toList.map binding) 0 m
  | flush : Shows m [flush] [okay] 0 m
  | flushFailed (s : Status) : Shows m [Cli.flush] [failed s] 1 m
  | stats (stats : Stats) : Shows m [Cli.stats] (statistics stats) 0 m
  | help (args : List Bytes) : Shows m (help :: args) [helpText] 0 m
  | unrecognized {cmd : Bytes} {args : List Bytes} (unknown : (cmd, args.length) ∉ arities)
      (nohelp : cmd ≠ Cli.help) : Shows m (cmd :: args) [unrecognized cmd] 1 m

/-- What the loop prints for some lines, and what it makes of the map. -/
inductive Session : ExtTreeMap Bytes Bytes → List Bytes → List Printed →
    ExtTreeMap Bytes Bytes → Prop where
  | eof (m : ExtTreeMap Bytes Bytes) : Session m [] [prompt] m
  | blank {m m' : ExtTreeMap Bytes Bytes} {l : Bytes} {ls : List Bytes} {out : List Printed}
      (empty : splitLine l = []) (rest : Session m ls out m') : Session m (l :: ls) (prompt :: out) m'
  | exit {m : ExtTreeMap Bytes Bytes} {l cmd : Bytes} {ls args : List Bytes}
      (split : splitLine l = cmd :: args) (named : cmd = exit ∨ cmd = quit) :
      Session m (l :: ls) [prompt] m
  | command {m m' m'' : ExtTreeMap Bytes Bytes} {l cmd : Bytes} {ls args : List Bytes}
      {out out' : List Printed} {rc : Nat} (split : splitLine l = cmd :: args)
      (goes : ¬(cmd = Cli.exit ∨ cmd = quit)) (shows : Shows m (cmd :: args) out rc m')
      (rest : Session m' ls out' m'') : Session m (l :: ls) (prompt :: (out ++ out')) m''

/-- What the program prints when `Open` is `OK`, and what it makes of the map. -/
inductive Prints (m : ExtTreeMap Bytes Bytes) (input : Bytes) :
    List Bytes → List Printed → Nat → ExtTreeMap Bytes Bytes → Prop where
  | oneShot {name path cmd : Bytes} {args : List Bytes} {out : List Printed} {rc : Nat}
      {m' : ExtTreeMap Bytes Bytes} (shows : Shows m (cmd :: args) out rc m') :
      Prints m input (name :: path :: cmd :: args) out rc m'
  | session {name path : Bytes} {out : List Printed} {m' : ExtTreeMap Bytes Bytes}
      (session : Session m (linesOf input) out m') :
      Prints m input [name, path] (greeting path :: out) 0 m'

section Serial

variable {m m' : ExtTreeMap Bytes Bytes} {args : List Bytes} {out : List Printed} {rc : Nat}
  {c' : Store}

/-- The map as the database shows it. -/
def content (m : ExtTreeMap Bytes Bytes) : Content := fun k => m[k]?

/-- A database that is open and shows the map. -/
def opened (m : ExtTreeMap Bytes Bytes) : Store := ⟨content m, false⟩

/-- An operation of a batch on the map. -/
def applied (m : ExtTreeMap Bytes Bytes) : BatchOp → ExtTreeMap Bytes Bytes
  | .put key value => m.insert key value
  | .delete key => m.erase key

theorem apply_content (m : ExtTreeMap Bytes Bytes) (op : BatchOp) :
    op.apply (content m) = content (applied m op) := by
  have hcompare : ∀ {a b : Bytes}, compare a b = .eq ↔ b = a := fun {a b} =>
    ⟨fun h => (LawfulEqCmp.eq_of_compare h).symm, fun h => h ▸ ReflCmp.compare_self⟩
  funext k
  cases op with
  | put key value =>
      simp only [BatchOp.apply, BatchOp.key, BatchOp.value?, applied, content,
        ExtTreeMap.getElem?_insert, Function.update_apply, hcompare]
  | delete key =>
      simp only [BatchOp.apply, BatchOp.key, BatchOp.value?, applied, content,
        ExtTreeMap.getElem?_erase, Function.update_apply, hcompare]

theorem after_content (m : ExtTreeMap Bytes Bytes) (batch : WriteBatch) :
    batch.after (content m) = content ((WriteBatch.decodeOps batch.rep).foldl applied m) :=
  List.foldl_hom content (H := apply_content)

/-- A batch of one operation. -/
theorem after_op {op : BatchOp} (h : op.Short) (m : ExtTreeMap Bytes Bytes) :
    (WriteBatch.ofOps [op]).after (content m) = content (applied m op) := by
  have hops : WriteBatch.decodeOps (WriteBatch.ofOps [op]).rep = [op] := by
    rw [WriteBatch.ofOps_rep]
    exact WriteBatch.decodeOps_encode fun o ho => List.mem_singleton.mp ho ▸ h
  rw [after_content, hops]
  rfl

theorem talks_report {s : Status} {c : Store} (h : (report s).Talks store c out rc c') : c' = c ∧
    (s.ok = true ∧ out = [okay] ∧ rc = 0 ∨ s.ok = false ∧ out = [failed s] ∧ rc = 1) := by
  rw [report] at h
  cases hs : s.ok with
  | true =>
      simp only [hs] at h
      obtain ⟨rest, rfl, hrest⟩ := talks_print h
      obtain ⟨rfl, rfl, rfl⟩ := talks_pure hrest
      exact ⟨rfl, .inl ⟨rfl, rfl, rfl⟩⟩
  | false =>
      simp only [hs] at h
      obtain ⟨rest, rfl, hrest⟩ := talks_print h
      obtain ⟨rfl, rfl, rfl⟩ := talks_pure hrest
      exact ⟨rfl, .inr ⟨rfl, rfl, rfl⟩⟩

theorem talks_printAll {xs : List Printed} {c : Store} {u : Unit}
    (h : (printAll xs).Talks store c out u c') : out = xs ∧ c' = c := by
  induction xs generalizing out with
  | nil =>
      obtain ⟨rfl, -, rfl⟩ := talks_pure h
      exact ⟨rfl, rfl⟩
  | cons x xs ih =>
      obtain ⟨rest, rfl, hrest⟩ := talks_print h
      obtain ⟨rfl, rfl⟩ := ih hrest
      exact ⟨rfl, rfl⟩

/-- A command that writes leaves what the batch leaves, or it fails. -/
theorem talks_write {batch : WriteBatch} (hne : batch.empty = false)
    (hafter : batch.after (content m) = content m')
    (h : (request (.write {} batch) >>= fun r => report r.asStatus).Talks store (opened m) out rc
      c') : c' = opened m' ∧ out = [okay] ∧ rc = 0 ∨ ∃ s, c' = opened m ∧ out = [failed s] ∧ rc = 1 := by
  obtain ⟨r, c, hdoes, hrest⟩ := talks_request h
  obtain ⟨rfl, hend⟩ := talks_report hrest
  cases r with
  | status s =>
      change Store.Does (opened m) (.write {} batch) (.status s) c' at hdoes
      rw [Store.Does, hne] at hdoes
      have hc' : c' = { opened m with content := if s.ok then batch.after (content m) else content m } :=
        hdoes
      rcases hend with ⟨hs, rfl, rfl⟩ | ⟨hs, rfl, rfl⟩
      · have hok : s.ok = true := hs
        rw [hok, if_pos rfl, hafter] at hc'
        exact .inl ⟨hc', rfl, rfl⟩
      · have hok : s.ok = false := hs
        rw [hok] at hc'
        exact .inr ⟨s, hc', rfl, rfl⟩
  | _ => exact hdoes.elim

theorem talks_reportValue {key : Bytes} {c : Store}
    (h : (reportValue (answer key m[key]?)).Talks store c out rc c') :
    c' = c ∧ Shows m [get, key] out rc m := by
  cases hm : m[key]? with
  | none =>
      rw [hm] at h
      obtain ⟨rest, rfl, hrest⟩ := talks_print h
      obtain ⟨rfl, rfl, rfl⟩ := talks_pure hrest
      exact ⟨rfl, .missing hm⟩
  | some value =>
      rw [hm] at h
      obtain ⟨rest, rfl, hrest⟩ := talks_print h
      obtain ⟨rfl, rfl, rfl⟩ := talks_pure hrest
      exact ⟨rfl, .got hm⟩

theorem does_get {key : Bytes} {r : Reply} (h : store.does (opened m) (.get key) r c') :
    c' = opened m ∧ r.asValue = answer key m[key]? := by
  cases r with
  | value r => exact h
  | _ => exact h.elim

theorem does_newIterator {r : Reply} (h : store.does (opened m) .newIterator r c') :
    c' = opened m ∧ r.asIterator = .ofSnapshot m := by
  cases r with
  | iterator it =>
      obtain ⟨rfl, snapshot, rfl, hshows⟩ := h
      exact ⟨rfl, congrArg Iterator.ofSnapshot (ExtTreeMap.ext_getElem? fun k => hshows k)⟩
  | _ => exact h.elim

theorem does_flush {r : Reply} (h : store.does (opened m) .flush r c') : c' = opened m := by
  cases r with
  | status s => exact h
  | _ => exact h.elim

theorem does_getStats {r : Reply} (h : store.does (opened m) .getStats r c') : c' = opened m := by
  cases r with
  | stats s => exact h
  | _ => exact h.elim

/-- A command on a database that serves it alone. -/
theorem talks_runOne {cmd : Bytes} {args : List Bytes} (hargs : ∀ a ∈ args, a.length < 2 ^ 32)
    (h : (runOne (cmd :: args)).Talks store (opened m) out rc c') :
    ∃ m', c' = opened m' ∧ Shows m (cmd :: args) out rc m' := by
  simp only [runOne, List.isEmpty_cons, Bool.false_eq_true, if_false, List.getD_cons_zero,
    List.length_cons, Nat.reduceEqDiff] at h
  split at h
  next hput =>
    obtain ⟨rfl, hlen⟩ := hput
    obtain ⟨key, value, rfl⟩ := List.length_eq_two.mp hlen
    have hafter := @after_op (.put key value) ⟨hargs key (by simp), hargs value (by simp)⟩ m
    rcases talks_write rfl hafter h with ⟨hc', rfl, rfl⟩ | ⟨s, hc', rfl, rfl⟩
    · exact ⟨_, hc', .put key value⟩
    · exact ⟨m, hc', .putFailed key value s⟩
  next hput =>
  split at h
  next hget =>
    obtain ⟨rfl, hlen⟩ := hget
    obtain ⟨key, rfl⟩ := List.length_eq_one_iff.mp hlen
    obtain ⟨r, c, hdoes, hrest⟩ := talks_request h
    obtain ⟨rfl, hr⟩ := does_get hdoes
    rw [show [get, key].getD 1 [] = key from rfl] at hr
    rw [hr] at hrest
    obtain ⟨rfl, hshows⟩ := talks_reportValue hrest
    exact ⟨m, rfl, hshows⟩
  next hget =>
  split at h
  next hdelete =>
    obtain ⟨hcmd, hlen⟩ := hdelete
    obtain ⟨key, rfl⟩ := List.length_eq_one_iff.mp hlen
    have hafter := @after_op (.delete key) (hargs key (by simp)) m
    rcases talks_write rfl hafter h with ⟨hc', rfl, rfl⟩ | ⟨s, hc', rfl, rfl⟩
    · exact ⟨_, hc', .delete key hcmd⟩
    · exact ⟨m, hc', .deleteFailed key s hcmd⟩
  next hdelete =>
  split at h
  next hscan =>
    obtain ⟨rfl, hlen⟩ := hscan
    obtain rfl := List.length_eq_zero_iff.mp hlen
    obtain ⟨r, c, hdoes, hrest⟩ := talks_request h
    obtain ⟨rfl, hr⟩ := does_newIterator hdoes
    rw [hr, Iterator.drain_eq, Iterator.seekToFirst, Iterator.ofSnapshot] at hrest
    obtain ⟨out₁, out₂, u, c₁, rfl, hfirst, hlast⟩ := talks_bind hrest
    obtain ⟨rfl, rfl⟩ := talks_printAll hfirst
    obtain ⟨rfl, rfl, rfl⟩ := talks_pure hlast
    refine ⟨m, rfl, ?_⟩
    rw [List.append_nil, ← ExtTreeMap.length_toList, List.take_length]
    exact .scan
  next hscan =>
  split at h
  next hflush =>
    obtain ⟨rfl, hlen⟩ := hflush
    obtain rfl := List.length_eq_zero_iff.mp hlen
    obtain ⟨r, c, hdoes, hrest⟩ := talks_request h
    obtain ⟨rfl, hend⟩ := talks_report hrest
    rcases hend with ⟨-, rfl, rfl⟩ | ⟨-, rfl, rfl⟩
    · exact ⟨m, does_flush hdoes, .flush⟩
    · exact ⟨m, does_flush hdoes, .flushFailed _⟩
  next hflush =>
  split at h
  next hstats =>
    obtain ⟨rfl, hlen⟩ := hstats
    obtain rfl := List.length_eq_zero_iff.mp hlen
    obtain ⟨r, c, hdoes, hrest⟩ := talks_request h
    obtain ⟨out₁, out₂, u, c₁, rfl, hfirst, hlast⟩ := talks_bind hrest
    obtain ⟨rfl, rfl⟩ := talks_printAll hfirst
    obtain ⟨rfl, rfl, rfl⟩ := talks_pure hlast
    rw [List.append_nil]
    exact ⟨m, does_getStats hdoes, .stats _⟩
  next hstats =>
  split at h
  next hhelp =>
    subst hhelp
    obtain ⟨rest, rfl, hrest⟩ := talks_print h
    obtain ⟨rfl, rfl, rfl⟩ := talks_pure hrest
    exact ⟨m, rfl, .help args⟩
  next hhelp =>
    obtain ⟨rest, rfl, hrest⟩ := talks_print h
    obtain ⟨rfl, rfl, rfl⟩ := talks_pure hrest
    refine ⟨m, rfl, .unrecognized ?_ hhelp⟩
    simp only [arities, List.mem_cons, Prod.mk.injEq, List.not_mem_nil, or_false]
    grind

theorem length_le_of_mem_splitOnP {p : UInt8 → Bool} {l piece : Bytes}
    (h : piece ∈ l.splitOnP p) : piece.length ≤ l.length := by
  induction l generalizing piece with
  | nil =>
      rw [List.splitOnP_nil, List.mem_singleton] at h
      exact Nat.le_of_eq (congrArg List.length h)
  | cons b l ih =>
      rw [List.splitOnP_cons_eq_if_modifyHead] at h
      split at h
      next => 
        rcases List.mem_cons.mp h with rfl | h
        · exact Nat.zero_le _
        · exact Nat.le_succ_of_le (ih h)
      next =>
        cases hpieces : l.splitOnP p with
        | nil => exact absurd hpieces (List.splitOnP_ne_nil p l)
        | cons q qs =>
            rw [hpieces, List.modifyHead_cons] at h
            rcases List.mem_cons.mp h with rfl | h
            · exact Nat.succ_le_succ (ih (hpieces ▸ List.mem_cons_self))
            · exact Nat.le_succ_of_le (ih (hpieces ▸ List.mem_cons_of_mem q h))

theorem length_le_of_mem_splitLine {l tok : Bytes} (h : tok ∈ splitLine l) :
    tok.length ≤ l.length :=
  length_le_of_mem_splitOnP (List.mem_filter.mp h).1

theorem length_le_of_mem_linesOf {input l : Bytes} (h : l ∈ linesOf input) :
    l.length ≤ input.length := by
  rw [linesOf] at h
  split at h
  · exact length_le_of_mem_splitOnP (List.mem_of_mem_dropLast h)
  · exact length_le_of_mem_splitOnP h

/-- The loop on a database that serves it alone. -/
theorem talks_repl {ls : List Bytes} {u : Unit}
    (hls : ∀ l ∈ ls, l.length < 2 ^ 32) (h : (repl ls).Talks store (opened m) out u c') :
    ∃ m', c' = opened m' ∧ Session m ls out m' := by
  induction ls generalizing m out with
  | nil =>
      obtain ⟨rest, rfl, hrest⟩ := @talks_print _ _ _ _ _ _ _ _ _ _ _ pure h
      obtain ⟨rfl, -, rfl⟩ := talks_pure hrest
      exact ⟨m, rfl, .eof m⟩
  | cons l ls ih =>
      rw [repl] at h
      obtain ⟨rest, rfl, hrest⟩ := talks_print h
      have hlater := fun l hl => hls l (List.mem_cons_of_mem _ hl)
      cases hsplit : splitLine l with
      | nil =>
          rw [hsplit] at hrest
          obtain ⟨m', hc', hsession⟩ := ih hlater hrest
          exact ⟨m', hc', .blank hsplit hsession⟩
      | cons cmd args =>
          have hargs : ∀ a ∈ args, a.length < 2 ^ 32 := fun a ha =>
            Nat.lt_of_le_of_lt (length_le_of_mem_splitLine (hsplit ▸ List.mem_cons_of_mem cmd ha))
              (hls l List.mem_cons_self)
          simp only [hsplit, List.isEmpty_cons, Bool.false_eq_true, if_false,
            List.getD_cons_zero] at hrest
          split at hrest
          next hexit =>
            obtain ⟨rfl, -, rfl⟩ := talks_pure hrest
            exact ⟨m, rfl, .exit hsplit hexit⟩
          next hgoes =>
            obtain ⟨out₁, out₂, rc, c, rfl, hfirst, hlast⟩ := talks_bind hrest
            obtain ⟨m₁, rfl, hshows⟩ := talks_runOne hargs hfirst
            obtain ⟨m', hc', hsession⟩ := ih hlater hlast
            exact ⟨m', hc', .command hsplit hgoes hshows hsession⟩

/-- The end of the program closes the database. -/
theorem talks_close {rc' : Nat}
    (h : (request .close >>= fun _ => pure rc : Program Nat).Talks store (opened m) out rc' c') :
    c'.content = content m ∧ out = [] ∧ rc' = rc := by
  obtain ⟨r, c, hdoes, hrest⟩ := talks_request h
  obtain ⟨rfl, rfl, rfl⟩ := talks_pure hrest
  cases r with
  | status s =>
      obtain ⟨rfl, -⟩ := hdoes
      exact ⟨rfl, rfl, rfl⟩
  | _ => exact hdoes.elim

/-- The program on a database that serves it alone. -/
theorem talks_main {name path input : Bytes} (hargs : ∀ a ∈ args, a.length < 2 ^ 32)
    (hinput : input.length < 2 ^ 32)
    (h : (main (name :: path :: args) .OK input).Talks store (opened m) out rc c') :
    ∃ m', c'.content = content m' ∧ Prints m input (name :: path :: args) out rc m' := by
  rw [main, if_neg (show ¬(name :: path :: args).length < 2 by simp)] at h
  cases args with
  | nil =>
      obtain ⟨rest, rfl, hrest⟩ := talks_print h
      obtain ⟨out₁, out₂, u, c, rfl, hfirst, hlast⟩ := talks_bind hrest
      obtain ⟨m', rfl, hsession⟩ := talks_repl
        (fun l hl => Nat.lt_of_le_of_lt (length_le_of_mem_linesOf hl) hinput) hfirst
      obtain ⟨hc', rfl, rfl⟩ := talks_close hlast
      rw [List.append_nil]
      exact ⟨m', hc', .session hsession⟩
  | cons cmd args =>
      obtain ⟨out₁, out₂, rc₁, c, rfl, hfirst, hlast⟩ := talks_bind h
      obtain ⟨m', rfl, hshows⟩ :=
        talks_runOne (fun a ha => hargs a (List.mem_cons_of_mem cmd ha)) hfirst
      obtain ⟨hc', rfl, rfl⟩ := talks_close hlast
      rw [List.append_nil]
      exact ⟨m', hc', .oneShot hshows⟩

end Serial

section Directory

variable {d : Path} {w w₀ : World} {es : List Event} {t t₀ : Nat}

/-- The map of a directory that some processes leave is one of finitely many bindings. -/
theorem content_of_leads {c : Content} {m : ExtTreeMap Bytes Bytes}
    (h : Leads es (content m) c) : ∃ m', c = content m' := by
  induction es generalizing m with
  | nil => exact ⟨m, h⟩
  | cons e es ih =>
      obtain ⟨c₁, hlead, hrest⟩ := h
      have hkept : ∃ m₁, c₁ = content m₁ := by
        unfold Event.Leads at hlead
        split at hlead
        next s =>
          cases hs : s.ok with
          | true => exact ⟨_, by rw [hlead, hs, if_pos rfl, after_content]⟩
          | false => exact ⟨m, by rw [hlead, hs]; rfl⟩
        next =>
          rcases hlead with rfl | rfl
          · exact ⟨m, rfl⟩
          · exact ⟨_, after_content m _⟩
        next => exact ⟨m, hlead⟩
      obtain ⟨m₁, rfl⟩ := hkept
      exact ih hrest

/-- What the program prints on a directory is decided by the map that an `Open` gets
before it, and the next `Open` gets the map that it makes of this one. -/
theorem main_prints (hblank : Blank d w) (hpath : d.getLast? ≠ some separator)
    (hr : Run Env.hostile AtomicWhole d ⟨w, none⟩ es t₀ ⟨w₀, none⟩)
    {xs : List (Call × Reply)} {m : Threads Unit}
    (hs : Threads.Run Env.hostile AtomicWhole d (Threads.start w₀) (.restart :: marks xs) t m)
    {name input : Bytes} {args : List Bytes} {out : List Printed} {rc : Nat}
    (hends : (main (name :: d :: args) .OK input).Ends xs out rc)
    (hargs : ∀ a ∈ args, a.length < 2 ^ 32) (hinput : input.length < 2 ^ 32)
    (b : Nat) (ht : t₀ + t + b + 1 < 2 ^ 64) :
    ∃ before after, Reopens d w₀ (content before) (t + b) ∧
      Prints before input (name :: d :: args) out rc after ∧
        Reopens d m.machine.world (content after) b := by
  have hnone : (fun _ => none : Content) = content ∅ := funext fun _ => ExtTreeMap.getElem?_empty.symm
  have hstart : Machine.Stands (some (content ∅)) False d (t₀ + (t + b)) ⟨w, none⟩ :=
    hblank.start (some (content ∅)) (by simp [hnone]) (by omega)
  obtain ⟨c₀, hleads, hstands⟩ := hr.atomic hstart hpath (Nat.le_add_right t₀ (t + b))
  obtain ⟨before, rfl⟩ := content_of_leads hleads
  rw [Nat.add_sub_cancel_left] at hstands
  have hserves : (Threads.start w₀ : Threads Unit).Serves True (opened before) d (t + b) :=
    ⟨hstands.left, fun db hdb => (by cases hdb)⟩
  obtain ⟨c, all, hall, hmoves, hserves'⟩ :=
    hs.serves hserves (Threads.orderly_start w₀) hpath (by omega)
  obtain ⟨c₁, rest, hrest, rfl, hmoves⟩ := hmoves.restarted hall
  obtain ⟨after, hafter, hprints⟩ := talks_main hargs hinput (hends.talks (hmoves.serial hrest))
  have hshows := (hserves'.left.1.shows hpath).2
  rw [Nat.add_sub_cancel_left, hafter] at hshows
  exact ⟨before, after, (hstands.torn.shows hpath).2, hprints, hshows⟩

/-- `put a x` on a directory that was not there. -/
theorem main_prints_put : ∃ xs t, ∃ m : Threads Unit, Threads.Run Env.hostile AtomicWhole [0x64]
    (Threads.start ⟨false, ∅⟩) (.restart :: marks xs) t m ∧
      (main [[0x63], [0x64], put, [0x61], [0x78]] .OK []).Ends xs [okay] 0 ∧
        ∃ before after, Reopens [0x64] ⟨false, ∅⟩ (content before) (t + 0) ∧
          Prints before [] [[0x63], [0x64], put, [0x61], [0x78]] [okay] 0 after ∧
            Reopens [0x64] m.machine.world (content after) 0 := by
  obtain ⟨s, s', t, m, hok, ht, hrun⟩ := Threads.putRun
  have hreport : report s = .say okay (.done 0) := by
    rw [report, hok]
    rfl
  have hends : (main [[0x63], [0x64], put, [0x61], [0x78]] .OK []).Ends
      [(.write {} (WriteBatch.put {} [0x61] [0x78]), .status s), (.close, .status s')] [okay] 0 := by
    refine Ends.ask ?_
    change Ends (Dialogue.bind (report s) fun rc => .ask .close fun _ => .done rc) _ _ _
    rw [hreport]
    exact .say (.ask .done)
  exact ⟨_, t, m, hrun, hends, main_prints ⟨rfl, rfl⟩ (by decide) .start hrun hends (by decide)
    (by decide) 0 (by omega)⟩

end Directory

end Cli

end ClomDB
