import Covenant.Command.Run
import Covenant.Proofs.Collections
import Covenant.Proofs.Directories
import Mathlib

/-!
# What a run reports

* `Returns`: a computation comes to an end with a result that satisfies a condition;
* `Surroundings.Reliable`: the surroundings answer, and bring the results of tasks in the order of the tasks;
* `Entry.Explained`: the outcome of an entry, given the answer to its request;
* `Entry.returns_run`: the outcome of one entry;
* `Entry.returns_together`: one outcome for each entry, in their order;
* `Ended.Reports`, `RunReport.reports_deliver`: the end of a command that reports, with its counts and its exit
  code;
* `run_explains`: all of it for the commands, and what has the same outcome without a service.
-/

namespace Covenant

open Std.Do

set_option mvcgen.warning false

section

variable {m : Type → Type} {ps : PostShape} [Monad m] [WPMonad m ps] {α β : Type}

/-! ## Computations -/

/-- A computation comes to an end, and its result satisfies a condition. -/
structure Returns (x : m α) (p : α → Prop) : Prop where
  triple : ⦃⌜True⌝⦄ x ⦃⇓ a => ⌜p a⌝⦄

theorem Returns.pure {p : α → Prop} {a : α} (h : p a) : Returns (pure a : m α) p where
  triple := by mvcgen

theorem Returns.bind {p : α → Prop} {q : β → Prop} {x : m α} {f : α → m β} (hx : Returns x p)
    (hf : ∀ a, p a → Returns (f a) q) : Returns (x >>= f) q := by
  refine ⟨Triple.bind x f hx.triple fun a => ?_⟩
  mintro ha
  mpure ha
  mspec (hf a ha).triple

/-! ## Surroundings -/

/-- Surroundings that answer requests in certain ways. What tasks return comes in the order of the tasks,
whichever of them ends first. -/
structure Surroundings.Reliable (world : Surroundings m)
    (answers : Outgoing → Except ExchangeError Reply → Prop) : Prop where
  now : Returns world.now fun _ => True
  exchange : ∀ limit request, Returns (world.exchange limit request) (answers request)
  together : ∀ {α : Type} (limit : UInt64) (tasks : List (m α)) (results : List (α → Prop)),
    List.Forall₂ Returns tasks results →
    Returns (world.together limit tasks) fun as => List.Forall₂ (fun p a => p a) results as

end

/-- The answer to the request of a contract, which is an error of its own if it cannot be sent. -/
inductive Request.AnsweredBy (answers : Outgoing → Except ExchangeError Reply → Prop) (base : String)
    (r : Request) : Except ExchangeError Reply → Prop
  | unsent {err : ExchangeError} : r.outgoing base = .error err → AnsweredBy answers base r (.error err)
  | sent {request : Outgoing} {answer : Except ExchangeError Reply} : r.outgoing base = .ok request →
      answers request answer → AnsweredBy answers base r answer

/-- How a run checks replies. -/
def Settings.checkOptions (s : Settings) : CheckOptions :=
  { CheckOptions.standard with ignoreHeaderCase := s.ignoreHeaderCase }

theorem Report.texts_eq_nil_iff {r : Report} : r.texts = [] ↔ r.hasViolations = false := by
  rw [Report.texts, Report.hasViolations, List.map_eq_nil_iff, Bool.not_eq_false', List.isEmpty_iff]

namespace Outcome

variable {name : String} {lines : List String} {ms : UInt64}

theorem name_ofLines (name : String) (lines : List String) (ms : UInt64) : (ofLines name lines ms).name = name := by
  rw [ofLines]
  split <;> rfl

theorem lines_ofLines (name : String) (lines : List String) (ms : UInt64) :
    (ofLines name lines ms).lines = lines := by
  rw [ofLines]
  split
  · rename_i hempty
    exact (List.isEmpty_iff.1 hempty).symm
  · rfl

theorem verdict_ofLines : (ofLines name lines ms).verdict = .pass ↔ lines = [] := by
  rw [ofLines, ← List.isEmpty_iff]
  split
  · rename_i hempty
    exact ⟨fun _ => hempty, fun _ => rfl⟩
  · rename_i hempty
    exact ⟨nofun, fun h => absurd h hempty⟩

end Outcome

namespace Entry

/-- The outcome of an entry, given the answer to its request. -/
structure Explained (e : Entry) (o : CheckOptions) (answer : Except ExchangeError Reply) (outcome : Outcome) :
    Prop where
  name : outcome.name = e.name
  pass_iff : outcome.verdict = .pass ↔ ∃ c reply, e.contract = .ok c ∧ answer = .ok reply ∧
    (validate c.expected reply o).hasViolations = false
  /-- There is nothing to explain if and only if the contract holds. -/
  lines_eq_nil_iff : outcome.lines = [] ↔ outcome.verdict = .pass
  unloaded : ∀ err, e.contract = .error err → outcome.lines = [err.message]
  unanswered : ∀ c err, e.contract = .ok c → answer = .error err → outcome.lines = [err.message]
  answered : ∀ c reply, e.contract = .ok c → answer = .ok reply →
    outcome.lines = (validate c.expected reply o).texts

/-- The lines for an entry, given the answer to its request. -/
def lines (e : Entry) (o : CheckOptions) (answer : Except ExchangeError Reply) : List String :=
  match e.contract with
  | .error err => [err.message]
  | .ok c => c.complaints o answer

theorem lines_eq_nil_iff {e : Entry} {o : CheckOptions} {answer : Except ExchangeError Reply} :
    e.lines o answer = [] ↔ ∃ c reply, e.contract = .ok c ∧ answer = .ok reply ∧
      (validate c.expected reply o).hasViolations = false := by
  rw [lines]
  constructor
  · intro h
    split at h
    · cases h
    · rename_i c hc
      cases answer with
      | error err => cases h
      | ok reply => exact ⟨c, reply, hc, rfl, Report.texts_eq_nil_iff.1 h⟩
  · rintro ⟨c, reply, hc, rfl, hclean⟩
    rw [hc]
    exact Report.texts_eq_nil_iff.2 hclean

/-- The outcome that these lines explain. -/
theorem explained_ofLines (e : Entry) (o : CheckOptions) (answer : Except ExchangeError Reply) (ms : UInt64) :
    e.Explained o answer (.ofLines e.name (e.lines o answer) ms) where
  name := Outcome.name_ofLines ..
  pass_iff := Outcome.verdict_ofLines.trans lines_eq_nil_iff
  lines_eq_nil_iff := by rw [Outcome.lines_ofLines, Outcome.verdict_ofLines]
  unloaded err herr := by rw [Outcome.lines_ofLines, lines, herr]
  unanswered c err hc herr := by
    rw [Outcome.lines_ofLines, lines, hc, herr]
    rfl
  answered c reply hc hreply := by
    rw [Outcome.lines_ofLines, lines, hc, hreply]
    rfl

/-- The outcome of an entry, where its request is answered in one of certain ways. -/
def Accounted (answers : Outgoing → Except ExchangeError Reply → Prop) (s : Settings) (e : Entry)
    (outcome : Outcome) : Prop :=
  ∃ answer, (∀ c, e.contract = .ok c → c.request.AnsweredBy answers s.baseUrl answer) ∧
    e.Explained s.checkOptions answer outcome

theorem accounted_fail {answers : Outgoing → Except ExchangeError Reply → Prop} {s : Settings} {e : Entry}
    {err : ContractError} (herr : e.contract = .error err) (ms : UInt64) :
    e.Accounted answers s (.fail e.name [err.message] ms) := by
  have hexplained := e.explained_ofLines s.checkOptions (.error (.invalidRequest "")) ms
  rw [lines, herr] at hexplained
  refine ⟨_, fun c hc => ?_, hexplained⟩
  rw [herr] at hc
  cases hc

theorem accounted_ofLines {answers : Outgoing → Except ExchangeError Reply → Prop} {s : Settings} {e : Entry}
    {c : Contract} {answer : Except ExchangeError Reply} (hc : e.contract = .ok c)
    (hanswer : c.request.AnsweredBy answers s.baseUrl answer) (ms : UInt64) :
    e.Accounted answers s (.ofLines e.name (c.complaints s.checkOptions answer) ms) := by
  have hexplained := e.explained_ofLines s.checkOptions answer ms
  rw [lines, hc] at hexplained
  refine ⟨answer, fun c' hc' => ?_, hexplained⟩
  rw [hc] at hc'
  cases hc'
  exact hanswer

/-! ## Entries -/

section

variable {m : Type → Type} {ps : PostShape} [Monad m] [WPMonad m ps] {world : Surroundings m}
  {answers : Outgoing → Except ExchangeError Reply → Prop}

/-- The outcome of one entry. -/
theorem returns_run (hworld : world.Reliable answers) (e : Entry) (s : Settings) :
    Returns (e.run world s) (e.Accounted answers s) := by
  rw [run]
  split
  · rename_i err herr
    exact .pure (accounted_fail herr 0)
  · rename_i c hc
    refine hworld.now.bind fun start _ => ?_
    -- what is left to do with an answer, which comes from the service or from the request itself
    have hrest (answer : Except ExchangeError Reply) (hanswer : c.request.AnsweredBy answers s.baseUrl answer) :
        Returns (do
          let stop ← world.now
          return Outcome.ofLines e.name (c.complaints s.checkOptions answer) (start.millisecondsSince stop))
          (e.Accounted answers s) :=
      hworld.now.bind fun stop _ => .pure (accounted_ofLines hc hanswer _)
    dsimp only
    split
    · rename_i err hsent
      exact Returns.bind (.pure (.unsent hsent)) hrest
    · rename_i request hsent
      exact (hworld.exchange _ request).bind fun answer hanswer => hrest answer (.sent hsent hanswer)

/-- One outcome for each entry, in their order. -/
theorem returns_together (hworld : world.Reliable answers) (limit : UInt64) (es : List Entry) (s : Settings) :
    Returns (world.together limit (es.map fun e => e.run world s)) (List.Forall₂ (Accounted answers s) es) := by
  have htasks : List.Forall₂ Returns (es.map fun e => e.run world s) (es.map (Accounted answers s)) := by
    rw [List.forall₂_map_left_iff, List.forall₂_map_right_iff, List.forall₂_same]
    exact fun e _ => returns_run hworld e s
  have hresults := hworld.together limit _ _ htasks
  simpa only [List.forall₂_map_left_iff] using hresults

end

/-- Without a service, exactly the entries without a contract fail, with the same lines. -/
theorem Accounted.check {answers : Outgoing → Except ExchangeError Reply → Prop} {s : Settings} {e : Entry}
    {outcome : Outcome} (h : e.Accounted answers s outcome) :
    e.check.name = outcome.name ∧ (e.check.verdict = .fail ↔ ¬ e.Loaded) ∧
      (¬ e.Loaded → outcome.verdict = .fail ∧ e.check.lines = outcome.lines) := by
  obtain ⟨answer, -, hexplained⟩ := h
  rw [Entry.check, hexplained.name]
  cases hc : e.contract with
  | ok c => exact ⟨rfl, ⟨nofun, fun h => absurd ⟨c, hc⟩ h⟩, fun h => absurd ⟨c, hc⟩ h⟩
  | error err =>
    have hlines := hexplained.unloaded err hc
    have hloaded : ¬ e.Loaded := by
      rintro ⟨c, hc'⟩
      rw [hc] at hc'
      cases hc'
    refine ⟨rfl, ⟨fun _ => hloaded, fun _ => rfl⟩, fun _ => ⟨?_, hlines.symm⟩⟩
    cases hverdict : outcome.verdict with
    | fail => rfl
    | pass =>
      rw [hexplained.lines_eq_nil_iff.2 hverdict] at hlines
      cases hlines

end Entry

/-! ## Reports -/

/-- A report can be written to the file that it is meant for, if there is one. -/
def RunReport.Deliverable (r : RunReport) (d : Disk) (format : Format) (file : Option String) : Prop :=
  ∀ path, file = some path → ∃ d', d.write path (Text.encode (r.render false format).toList) = .ok d'

/-- The command ends with a report on these outcomes, which can be written or not. As long as a word can count
them, the counts in it are those of the verdicts, and the command succeeds exactly if all of them hold. -/
def Ended.Reports (ended : Ended) (d : Disk) (color : Bool) (format : Format) (file : Option String)
    (outcomes : List Outcome) : Prop :=
  ∃ r : RunReport, ended = r.deliver d color format file ∧ r.summary.outcomes = outcomes ∧
    r.summary.passed + r.summary.failed = r.summary.total ∧
    (outcomes.length < UInt64.size → r.summary.Counts ∧
      (r.Deliverable d format file →
        ended.exit.number = if ∀ o ∈ outcomes, o.verdict = .pass then 0 else 1)) ∧
    (¬ r.Deliverable d format file → ended.exit.number = 4)

namespace RunReport

variable {r : RunReport} {d : Disk} {color : Bool} {format : Format} {file : Option String}

theorem exit_deliver (h : r.Deliverable d format file) :
    (r.deliver d color format file).exit = .ofSuccess r.summary.isSuccess := by
  cases file with
  | none => rfl
  | some path =>
    obtain ⟨d', hwrite⟩ := h path rfl
    rw [deliver, hwrite]

theorem exit_deliver_of_not (h : ¬ r.Deliverable d format file) :
    (r.deliver d color format file).exit = .fileError := by
  cases file with
  | none => exact absurd nofun h
  | some path =>
    cases hwrite : d.write path (Text.encode (r.render false format).toList) with
    | error fault =>
      rw [deliver, hwrite]
      rfl
    | ok d' =>
      refine absurd (fun path' hpath => ?_) h
      cases hpath
      exact ⟨d', hwrite⟩

theorem reports_deliver (outcomes : List Outcome) (ms : UInt64) (time : Timestamp) (d : Disk) (color : Bool)
    (format : Format) (file : Option String) :
    ((RunReport.mk (.ofOutcomes outcomes ms) time).deliver d color format file).Reports d color format file
      outcomes := by
  refine ⟨_, rfl, rfl, Summary.passed_add_failed outcomes ms, fun hlength => ?_, fun h => ?_⟩
  · have hcounts := Summary.counts_ofOutcomes hlength ms
    refine ⟨hcounts, fun h => ?_⟩
    -- the exit code is that of the count of failures
    rw [exit_deliver h, ExitCode.number_ofSuccess]
    exact if_congr hcounts.isSuccess_iff rfl rfl
  · rw [exit_deliver_of_not h]
    rfl

end RunReport

section

variable {m : Type → Type} {ps : PostShape} [Monad m] [WPMonad m ps] {world : Surroundings m}
  {answers : Outgoing → Except ExchangeError Reply → Prop}

/-- A run ends with a report on its entries. -/
theorem RunArguments.returns_perform (hworld : world.Reliable answers) {a : RunArguments}
    {environment : String → Option String} (color : Bool) (source : Source) {d : Disk}
    {entries : Rand (List Entry)} (hcheck : (a.settings environment).check = .ok ())
    (hentries : d.contracts a.contracts = .ok entries) :
    Returns (a.perform world environment color source d) fun ended => ∃ outcomes,
      List.Forall₂ (Entry.Accounted answers (a.settings environment)) (entries source).1 outcomes ∧
        ended.Reports d color a.format a.output outcomes := by
  rw [perform, hcheck, hentries]
  refine hworld.now.bind fun start _ => ?_
  refine (Entry.returns_together hworld _ (entries source).1 _).bind fun outcomes houtcomes => ?_
  refine hworld.now.bind fun stop _ => .pure ⟨outcomes, houtcomes, ?_⟩
  exact RunReport.reports_deliver outcomes _ stop d color a.format a.output

/-- So does a check. -/
theorem CheckArguments.returns_perform (hworld : world.Reliable answers) {a : CheckArguments} (color : Bool)
    (source : Source) {d : Disk} {entries : Rand (List Entry)} (hentries : d.contracts a.contracts = .ok entries) :
    Returns (a.perform world color source d) fun ended =>
      ended.Reports d color a.format a.output ((entries source).1.map Entry.check) := by
  rw [perform]
  refine hworld.now.bind fun start _ => ?_
  rw [hentries]
  refine hworld.now.bind fun stop _ => .pure ?_
  exact RunReport.reports_deliver _ _ stop d color a.format a.output

end

/-! ## Two examples -/

namespace LastFirst

/-- Tasks carried out from the last one to the first. -/
def together : List (StateM (List Outgoing) α) → StateM (List Outgoing) (List α)
  | [] => return []
  | task :: tasks => do
    let rest ← together tasks
    let first ← task
    return first :: rest

/-- A service that remembers what it was asked for, and has nothing to say. -/
def world : Surroundings (StateM (List Outgoing)) where
  now := return ⟨0, 0⟩
  exchange _ request := do
    modify (request :: ·)
    return .ok ⟨204, [], .null⟩
  together _ tasks := together tasks

def answers (_ : Outgoing) (answer : Except ExchangeError Reply) : Prop := answer = .ok ⟨204, [], .null⟩

theorem reliable : world.Reliable answers where
  now := .pure trivial
  exchange limit request := by
    refine ⟨?_⟩
    rw [world]
    mvcgen [answers]
  together limit tasks results h := by
    show Returns (together tasks) _
    induction h with
    | nil => exact .pure .nil
    | cons htask _ ih => exact ih.bind fun rest hrest => htask.bind fun first hfirst => .pure (.cons hfirst hrest)

/-- A contract, and a file that holds none. -/
def entries : List Entry :=
  [⟨"a", "c/a.yaml", .ok ⟨"a", .plain "/" .get, .ofStatus 204⟩⟩,
    ⟨"b", "c/b.yaml", .error (.missingField "b" "contract")⟩]

end LastFirst

namespace NoReport

/-- A disk with an empty directory. -/
def disk : Disk := ⟨[(["c"], .directory)], []⟩

/-- A run of the contracts in it, whose report is to go where there is no directory. -/
def arguments : RunArguments :=
  ⟨"c", "http://localhost:1", none, none, .text, some "missing/report.txt", false⟩

theorem find_c : disk.find "c" = .ok (["c"], .directory) :=
  Disk.find_eq_ok_iff.2 (Disk.place_fileName (by decide) ⟨by decide, by decide, by decide⟩ (by decide) rfl rfl
    (by simp) true)

theorem contracts_c : disk.contracts "c" = .ok fun s => ([], s) := by
  have hvisit : disk.visit [(["c"], "c")] ["c"] "c" = [] := by
    rw [Disk.visit]
    rfl
  rw [Disk.contracts, Disk.isDirectory, find_c, Disk.collection, Disk.walk, find_c]
  dsimp only
  rw [hvisit, List.mergeSort_nil]
  rfl

theorem check_settings : (arguments.settings fun _ => none).check = .ok () := by decide +kernel

theorem write_report (octets : List UInt8) : disk.write "missing/report.txt" octets = .error .notFound := by
  have hresolve : disk.resolve "missing/report.txt" = .error .notFound := by
    rw [Disk.resolve, Disk.place_of_admissible ⟨by decide, by decide, by decide⟩,
      show Disk.steps "missing/report.txt" = [.name "missing", .name "report.txt"] by decide +kernel]
    show disk.follow true Disk.linkLimit [] _ = _
    rw [Disk.follow]
    rfl
  rw [Disk.write, if_neg (by decide), hresolve]

end NoReport

/-! ## The commands -/

/-- A run reports one outcome for each entry, in their order, and each of them is explained by its entry and the
answer to its request. Whether all contracts hold can be seen from how the command ends, unless the report cannot
be written or a word cannot count the outcomes. A check reports the entries without a contract as a run does. -/
theorem run_explains {m : Type → Type} {ps : PostShape} [Monad m] [WPMonad m ps] {world : Surroundings m}
    {answers : Outgoing → Except ExchangeError Reply → Prop} (hworld : world.Reliable answers) :
    (∀ (limit : UInt64) (es : List Entry) (s : Settings),
      Returns (world.together limit (es.map fun e => e.run world s))
        (List.Forall₂ (Entry.Accounted answers s) es)) ∧
    (∀ (a : RunArguments) (environment : String → Option String) (color : Bool) (source : Source) (d : Disk)
      (entries : Rand (List Entry)), (a.settings environment).check = .ok () →
      d.contracts a.contracts = .ok entries →
      Returns (a.perform world environment color source d) fun ended => ∃ outcomes,
        List.Forall₂ (Entry.Accounted answers (a.settings environment)) (entries source).1 outcomes ∧
          ended.Reports d color a.format a.output outcomes) ∧
    (∀ (a : CheckArguments) (color : Bool) (source : Source) (d : Disk) (entries : Rand (List Entry)),
      d.contracts a.contracts = .ok entries →
      Returns (a.perform world color source d) fun ended =>
        ended.Reports d color a.format a.output ((entries source).1.map Entry.check)) ∧
    ∀ (e : Entry) (s : Settings) (outcome : Outcome), e.Accounted answers s outcome →
      e.check.name = outcome.name ∧ (e.check.verdict = .fail ↔ ¬ e.Loaded) ∧
        (¬ e.Loaded → outcome.verdict = .fail ∧ e.check.lines = outcome.lines) := by
  refine ⟨Entry.returns_together hworld, ?_, ?_, fun e s outcome => Entry.Accounted.check⟩
  · intro a environment color source d entries hcheck hentries
    exact RunArguments.returns_perform hworld color source hcheck hentries
  · intro a color source d entries hentries
    exact CheckArguments.returns_perform hworld color source hentries

theorem run_explains_lastFirst :
    LastFirst.world.Reliable LastFirst.answers ∧
    Returns (LastFirst.world.together 2 (LastFirst.entries.map fun e => e.run LastFirst.world .standard))
      (List.Forall₂ (Entry.Accounted LastFirst.answers .standard) LastFirst.entries) ∧
    Returns (NoReport.arguments.perform LastFirst.world (fun _ => none) false .least NoReport.disk) fun ended =>
      ∃ outcomes,
        List.Forall₂ (Entry.Accounted LastFirst.answers (NoReport.arguments.settings fun _ => none)) [] outcomes ∧
          ended.Reports NoReport.disk false .text (some "missing/report.txt") outcomes := by
  obtain ⟨htogether, hrun, -⟩ := run_explains LastFirst.reliable
  refine ⟨LastFirst.reliable, htogether 2 LastFirst.entries .standard, ?_⟩
  exact hrun NoReport.arguments _ false .least NoReport.disk _ NoReport.check_settings NoReport.contracts_c

/-- Where the report cannot be written, the command fails although no contract does: there is none. -/
theorem run_noReport :
    let s := NoReport.arguments.settings fun _ => none
    s.check = .ok () ∧ NoReport.disk.contracts NoReport.arguments.contracts = .ok (fun source => ([], source)) ∧
    (LastFirst.world.together s.concurrency (([] : List Entry).map fun e => e.run LastFirst.world s) []).1 = [] ∧
    (NoReport.arguments.perform LastFirst.world (fun _ => none) false .least NoReport.disk []).1.exit.number = 4 := by
  have hended : (NoReport.arguments.perform LastFirst.world (fun _ => none) false .least NoReport.disk []).1 =
      RunReport.deliver ⟨.ofOutcomes [] 0, ⟨0, 0⟩⟩ NoReport.disk false .text (some "missing/report.txt") := by
    rw [RunArguments.perform, NoReport.check_settings,
      show NoReport.disk.contracts NoReport.arguments.contracts = _ from NoReport.contracts_c]
    rfl
  refine ⟨NoReport.check_settings, NoReport.contracts_c, rfl, ?_⟩
  rw [hended, RunReport.deliver, NoReport.write_report]
  rfl

end Covenant
