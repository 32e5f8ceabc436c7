import NixGrpcStore.Daemon.Claims
import Mathlib.Tactic

/-!
# Who schedules

`Elector` of the daemon: a node holds a call to the cache open and schedules while the lines it reads there say
that it leads.  When the call is lost it goes on for `grace`, since nobody else can be elected meanwhile.
-/

namespace NixGrpcStore

namespace Elector

open Oidc (Bytes Json)

/-! ## Reading the lines -/

/-- The byte `\n`. -/
def eol : UInt8 := 10

/-- The bytes of `lead`. -/
def leadKey : Bytes := [108, 101, 97, 100]

/-- What a line says; only an object with a boolean `lead` counts. -/
def leadOf (parse : Bytes → Option Json) (line : Bytes) : Option Bool :=
  match parse line with
  | some (.object members) =>
    match members.lookup leadKey with
    | some (.boolean lead) => some lead
    | _ => none
  | _ => none

/-- The loop of `onData`, with what it calls `lead` with and the buffer it leaves. -/
def drain (parse : Bytes → Option Json) : ℕ → Bytes → List Bool × Bytes
  | 0, buf => ([], buf)
  | rounds + 1, buf =>
    match buf.idxOf? eol with
    | none => ([], buf)
    | some pos =>
      let (leads, rest) := drain parse rounds (buf.drop (pos + 1))
      ((leadOf parse (buf.take pos)).toList ++ leads, rest)

/-- Each round erases a byte, so there are at most as many rounds as bytes. -/
def onData (parse : Bytes → Option Json) (buf chunk : Bytes) : List Bool × Bytes :=
  drain parse (buf ++ chunk).length (buf ++ chunk)

/-- Curl hands over one chunk after the other. -/
def receive (parse : Bytes → Option Json) : List Bytes → Bytes → List Bool × Bytes
  | [], buf => ([], buf)
  | chunk :: chunks, buf =>
    let (leads, buf) := onData parse buf chunk
    let (later, buf) := receive parse chunks buf
    (leads ++ later, buf)

variable {parse : Bytes → Option Json}

/-- A text is some lines, each with its end, and a rest without one. -/
structure Cut (text : Bytes) (lines : List Bytes) (rest : Bytes) : Prop where
  text_eq : text = lines.flatMap (· ++ [eol]) ++ rest
  line : ∀ line ∈ lines, eol ∉ line
  rest : eol ∉ rest

theorem drain_cut (parse : Bytes → Option Json) {rounds : ℕ} {buf : Bytes} (enough : buf.length ≤ rounds) :
    ∃ lines rest, drain parse rounds buf = (lines.filterMap (leadOf parse), rest) ∧ Cut buf lines rest := by
  induction rounds generalizing buf with
  | zero =>
    obtain rfl := List.length_eq_zero_iff.mp (Nat.le_zero.mp enough)
    exact ⟨[], [], rfl, rfl, by simp, by simp⟩
  | succ rounds ih =>
    cases found : buf.idxOf? eol with
    | none =>
      have absent : eol ∉ buf := by simpa using found
      exact ⟨[], buf, by simp [drain, found], rfl, by simp, absent⟩
    | some pos =>
      obtain ⟨lt, at_pos, before⟩ := List.findIdx?_eq_some_iff_getElem.mp found
      have shorter : (buf.drop (pos + 1)).length ≤ rounds := by
        rw [List.length_drop]
        omega
      obtain ⟨lines, rest, drained, cut⟩ := ih shorter
      refine ⟨buf.take pos :: lines, rest, ?_, ?_, ?_, cut.rest⟩
      · simp only [drain, found, drained, List.filterMap_cons]
        cases leadOf parse (buf.take pos) with
        | none => rfl
        | some lead => rfl
      · rw [List.flatMap_cons, List.append_assoc, ← cut.text_eq, ← eq_of_beq at_pos]
        simp
      · simp only [List.mem_cons, forall_eq_or_imp]
        refine ⟨fun mem => ?_, cut.line⟩
        obtain ⟨i, i_lt, get_eq⟩ := List.getElem_of_mem mem
        rw [List.getElem_take] at get_eq
        rw [List.length_take] at i_lt
        exact before i (by omega) (beq_iff_eq.mpr get_eq)

/-- However the stream is cut into chunks, `lead` is called once for each whole line that counts, in order, and what
follows the last line is kept. -/
theorem receive_lines (chunks : List Bytes) :
    ∃ lines rest, receive parse chunks [] = (lines.filterMap (leadOf parse), rest) ∧
      Cut chunks.flatten lines rest := by
  suffices general : ∀ buf, eol ∉ buf → ∃ lines rest,
      receive parse chunks buf = (lines.filterMap (leadOf parse), rest) ∧ Cut (buf ++ chunks.flatten) lines rest from
    general [] (by simp)
  induction chunks with
  | nil => exact fun buf whole => ⟨[], buf, rfl, by simp, by simp, whole⟩
  | cons chunk chunks ih =>
    intro buf _
    obtain ⟨first, mid, drained, cut⟩ := drain_cut parse (le_refl (buf ++ chunk).length)
    obtain ⟨lines, rest, received, cut'⟩ := ih mid cut.rest
    refine ⟨first ++ lines, rest, ?_, ?_, ?_, cut'.rest⟩
    · simp only [receive, onData, drained, received, List.filterMap_append]
    · rw [List.flatten_cons, ← List.append_assoc, cut.text_eq, List.append_assoc, cut'.text_eq]
      simp
    · simpa [or_imp, forall_and] using And.intro cut.line cut'.line

/-! ## Taking the lead and giving it up -/

/-- How long a node that leads goes on without its call, in seconds. -/
def grace : ℚ := 30

/-- What a node hears and does. -/
inductive Event
  /-- A line says whether we lead. -/
  | heard (lead : Bool)
  /-- A call is over at this time. -/
  | checked (now : ℚ)
  /-- `onChange` is called. -/
  | changed (lead : Bool)

end Elector

/-- The elector, with the buffer of its reader while a call is open and what happened so far, newest first. -/
structure Elector where
  active : Bool := false
  lostAt : Option ℚ := none
  reader : Option Oidc.Bytes := none
  log : List Elector.Event := []

namespace Elector

open Oidc (Bytes Json)

variable {parse : Bytes → Option Json} {e e' : Elector} {log : List Event}

def set (lead : Bool) (e : Elector) : Elector :=
  if lead = e.active then e else { e with active := lead, log := .changed lead :: e.log }

/-- What `run` has its reader call. -/
def lead (e : Elector) (lead : Bool) : Elector :=
  { e with lostAt := none, log := .heard lead :: e.log }.set lead

/-- The steps of `run`. -/
inductive Act
  /-- The call is made. -/
  | post
  | data (chunk : Bytes)
  /-- The call is over, or could not be made. -/
  | check (now : ℚ)

def Act.perform (parse : Bytes → Option Json) (e : Elector) : Act → Option Elector
  | .post => if e.reader = none then some { e with reader := some [] } else none
  | .data chunk => e.reader.map fun buf =>
    (onData parse buf chunk).1.foldl lead { e with reader := some (onData parse buf chunk).2 }
  | .check now =>
    let lostAt := e.lostAt.getD now
    let e := { e with reader := none, lostAt := some lostAt, log := .checked now :: e.log }
    some (if e.active = false ∨ now - lostAt > grace then e.set false else e)

/-- The runs of an elector; it starts passive. -/
abbrev Reached (parse : Bytes → Option Json) : Elector → Prop :=
  Relation.ReflTransGen (fun e e' => ∃ act : Act, act.perform parse e = some e') {}

/-- What the last line said. -/
def lastHeard : List Event → Option Bool
  | [] => none
  | .heard lead :: _ => some lead
  | _ :: log => lastHeard log

/-- When calls were over since the last line. -/
def checks : List Event → List ℚ
  | [] => []
  | .heard _ :: _ => []
  | .checked now :: log => now :: checks log
  | .changed _ :: log => checks log

/-- What `onChange` was called with, and that we start passive. -/
def changes : List Event → List Bool
  | [] => [false]
  | .changed lead :: log => lead :: changes log
  | _ :: log => changes log

/-- The last line gave us the lead, and no call was over too long after the first one since. -/
def Leads (log : List Event) : Prop :=
  lastHeard log = some true ∧ ∀ first ∈ (checks log).getLast?, ∀ now ∈ checks log, now - first ≤ grace

/-- What a run keeps up. -/
structure Kept (e : Elector) : Prop where
  lost : e.lostAt = (checks e.log).getLast?
  leads : e.active = true ↔ Leads e.log
  turns : (changes e.log).IsChain (· ≠ ·) ∧ (changes e.log).head? = some e.active

theorem Kept.set {lead : Bool} (lost : e.lostAt = (checks e.log).getLast?)
    (leads : lead = true ↔ Leads e.log)
    (turns : (changes e.log).IsChain (· ≠ ·) ∧ (changes e.log).head? = some e.active) :
    Kept (e.set lead) := by
  rw [Elector.set]
  split_ifs with same
  · exact ⟨lost, same ▸ leads, turns⟩
  · refine ⟨lost, leads, List.isChain_cons.mpr ⟨?_, turns.1⟩, rfl⟩
    simpa [turns.2] using same

theorem Kept.hear (leads : List Bool) (kept : Kept e) : Kept (leads.foldl lead e) := by
  induction leads generalizing e with
  | nil => exact kept
  | cons first leads ih => exact ih (.set rfl (by simp [Leads, lastHeard, checks]) kept.turns)

theorem leads_checked {now : ℚ} :
    Leads (.checked now :: log) ↔ Leads log ∧ now - (checks log).getLast?.getD now ≤ grace := by
  cases last : (checks log).getLast? with
  | none => simp [Leads, lastHeard, checks, List.getLast?_eq_none_iff.mp last, grace]
  | some first => simp [Leads, lastHeard, checks, List.getLast?_cons, last, and_comm, and_left_comm]

theorem Kept.perform {act : Act} (kept : Kept e) (performed : act.perform parse e = some e') : Kept e' := by
  cases act with
  | post =>
    rw [Act.perform] at performed
    split_ifs at performed
    cases performed
    exact ⟨kept.lost, kept.leads, kept.turns⟩
  | data chunk =>
    obtain ⟨buf, -, rfl⟩ := Option.map_eq_some_iff.mp performed
    exact .hear _ ⟨kept.lost, kept.leads, kept.turns⟩
  | check now =>
    have lost : some (e.lostAt.getD now) = (checks (.checked now :: e.log)).getLast? := by
      rw [kept.lost, checks, List.getLast?_cons]
    have leads : Leads (.checked now :: e.log) ↔ _ := leads_checked
    rw [← kept.leads, ← kept.lost] at leads
    rw [Act.perform, Option.some.injEq] at performed
    split_ifs at performed with late
    · cases performed
      refine .set lost ?_ kept.turns
      grind
    · cases performed
      refine ⟨lost, ?_, kept.turns⟩
      grind

/-- A node schedules exactly while the last line it read gave it the lead and no call since was over more than `grace`
after the first one; and `onChange` is told true and false in turns, true first. -/
theorem leads_while_told (reached : Reached parse e) : (e.active = true ↔ Leads e.log) ∧
    (changes e.log).IsChain (· ≠ ·) ∧ (changes e.log).head? = some e.active := by
  have kept : Kept e := by
    induction reached with
    | refl => exact ⟨rfl, by simp [Leads, lastHeard], by simp [changes]⟩
    | tail _ move ih => exact ih.perform move.choose_spec
  exact ⟨kept.leads, kept.turns⟩

/-- A line gives us the lead; the call is lost, and still half a minute later. -/
theorem leads_while_told_takeOver : ∃ e, Reached (fun _ => some (.object [(leadKey, .boolean true)])) e ∧
    changes e.log = [false, true, false] ∧ ¬ Leads e.log := by
  have reached : Reached (fun _ => some (.object [(leadKey, .boolean true)])) _ :=
    .tail (.tail (.tail (.tail .refl ⟨.post, rfl⟩) ⟨.data [eol], rfl⟩) ⟨.check 0, rfl⟩) ⟨.check 31, rfl⟩
  exact ⟨_, reached, by decide +kernel, (leads_while_told reached).1.not.mp (by decide +kernel)⟩

end Elector

end NixGrpcStore
