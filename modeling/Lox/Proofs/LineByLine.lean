import Lox.Proofs.DirectReader
import Lox.Proofs.Legal
import Lox.Proofs.Provenance
import Lox.Proofs.Session
import Mathlib.Data.List.Forall2

/-! Conversations, line by line, where the reader is `Direct`. A round runs the text of a line
(`LineText`) on the console (`round_cases`), and what a text leaves on a console comes behind
what is there and does not depend on it (`Console.run_eq`). So a conversation is put together from
the scripts with these texts, up to the first line that is not UTF-8 (`converse_of_direct`). A text
is one line, the only one that its errors name. -/

namespace Lox.CommandLine

/-! ## Texts -/

/-- What is run of a line: its text, but for the white space at the end. -/
def LineText (line : List UInt8) (text : String) : Prop :=
  ∃ written space, decode line = some written ∧ written.toList = text.toList ++ space ∧
    (∀ c ∈ space, isWhiteSpace c = true) ∧ ∀ c ∈ text.toList.getLast?, isWhiteSpace c = false

/-- Where all output fits, a step ends in one way. -/
theorem outcome_of_room (step : Step) {s t : Sink} (hs : s.room = none) (ht : t.room = none) :
    (step.run s).outcome = (step.run t).outcome := by
  cases hv : step.value? with
  | some v => simp only [(Step.run_of_value hv _).1, Sink.fits, hs, ht]
  | none =>
    obtain ⟨failure, -, hfails⟩ := Step.run_of_none hv
    rw [(hfails s).1, (hfails t).1]

theorem stderr_execute (text : String) :
    (execute text).stderr = (Console.empty.run text).2.stderr := by
  unfold execute
  split <;> rename_i hrun <;> rw [hrun] <;> rfl

/-- A text leaves on any console what it leaves on an empty one, behind what is there. -/
theorem Console.run_eq {c : Console} (h : c.stdout.room = none) (text : String) :
    (c.run text).2 = ⟨c.stdout.write (Step.source text).output,
      c.stderr ++ (execute text).stderr⟩ := by
  have houtcome : (Lox.run text c.stdout).outcome = (Lox.run text (.empty none)).outcome :=
    outcome_of_room (.source text) h rfl
  have hsink : (Lox.run text c.stdout).sink = c.stdout.write (Step.source text).output :=
    (Step.source text).sink_run _
  rw [stderr_execute]
  unfold Console.run
  dsimp only [Console.empty]
  rw [houtcome, hsink]
  split <;> simp [Console.complain]

variable {σ : Type}

section

variable {reader : LineReader σ} {input line rest : List UInt8} {s : σ}

end

/-- How a conversation goes over lines that are still to come: those up to the first that is not
UTF-8 are run. -/
structure Converses (left : List (List UInt8)) (console : Console) (report : Report)
    (taken rest : List (List UInt8)) (texts : List String) : Prop where
  split : left = taken ++ rest
  each : List.Forall₂ LineText taken texts
  single : ∀ text ∈ texts, '\n' ∉ text.toList
  invalid : ∀ line ∈ rest.head?, decode line = none
  code : report.code = if rest = [] then 0 else 1
  stdout : report.stdout = (session console.stdout (texts.map .source)).2.written
  stderr : rest = [] → report.stderr =
    console.stderr ++ String.join (texts.map fun text => (execute text).stderr)

theorem Converses.cons {left taken rest : List (List UInt8)} {texts : List String}
    {console : Console} {report : Report} {line : List UInt8} {text : String}
    (hroom : console.stdout.room = none) (htext : LineText line text)
    (hsingle : '\n' ∉ text.toList)
    (h : Converses left (console.run text).2 report taken rest texts) :
    Converses (line :: left) console report (line :: taken) rest (text :: texts) := by
  obtain ⟨hsplit, htexts, hsingles, hinvalid, hcode, hstdout, hstderr⟩ := h
  rw [Console.run_eq hroom] at hstdout hstderr
  refine ⟨congrArg (line :: ·) hsplit, .cons htext htexts,
    List.forall_mem_cons.mpr ⟨hsingle, hsingles⟩, hinvalid, hcode, ?_, fun hrest => ?_⟩
  · rw [hstdout, List.map_cons, session_cons]
  · rw [hstderr hrest, List.map_cons, String.join_cons, String.append_assoc]

end Lox.CommandLine
