import Mathlib.Tactic.Common
import TokenCatalog.Command.Program

/-!
# Steps of a run

What each step of a run does to a session. A run goes through a host in some lawful monad, so these
are equations between computations of the host: a step that asks nothing of the host is `pure`, and
after a step that ends the run there is no other one. Main statements:

* `on_bind`, and a lemma for each kind of step: what a run gives and the session after it;
* `run_eq_map`: what a command line leaves behind is the report of its run.
-/

namespace TokenCatalog.Command

open Project (Host)

variable {m : Type → Type} [Monad m] {α β : Type}

/-- What a run gives, and the session after it, given the session before it. -/
def Run.on (x : Run m α) (session : Session) : m (Except Ending α × Session) :=
  x.run.run session

/-- How a run goes on after a step with a result. -/
def Run.after (f : α → Run m β) : Except Ending α × Session → m (Except Ending β × Session)
  | (.ok a, session) => Run.on (f a) session
  | (.error ending, session) => pure (.error ending, session)

theorem on_bind (x : Run m α) (f : α → Run m β) (session : Session) :
    Run.on (x >>= f) session = Run.on x session >>= Run.after f := by
  simp only [Run.on, ExceptT.run_bind, StateT.run_bind]
  congr 1
  funext ⟨result, session⟩
  cases result <;> rfl

@[simp] theorem on_pure (a : α) (session : Session) :
    Run.on (pure a : Run m α) session = pure (.ok a, session) := by
  simp [Run.on]

@[simp] theorem on_finish (output : Output) (exitCode : Int) (session : Session) :
    Run.on (finish output exitCode : Run m α) session =
      pure (.error ⟨output, exitCode⟩, session) := by
  rfl

variable [LawfulMonad m]

@[simp] theorem on_modify (f : Session → Session) (session : Session) :
    Run.on (modify f : Run m Unit) session = pure (.ok (), f session) := by
  show ((ExceptT.lift (modify f : StateT Session m Unit) : Run m Unit).run).run session = _
  simp

@[simp] theorem on_say (output : Output) (session : Session) :
    Run.on (say output : Run m Unit) session =
      pure (.ok (), { session with output := session.output ++ output }) :=
  on_modify _ session

/-- A question to the host leaves the session as it is. -/
theorem on_ask (question : m α) (session : Session) :
    Run.on (liftM question : Run m α) session = (fun a => (.ok a, session)) <$> question := by
  show ((ExceptT.lift (StateT.lift question) : Run m α).run).run session = _
  simp

theorem on_ask_bind (question : m α) (f : α → Run m β) (session : Session) :
    Run.on (liftM question >>= f) session = question >>= fun a => Run.on (f a) session := by
  rw [on_bind, on_ask, bind_map_left]
  rfl

/-! ## Words and options -/

omit [LawfulMonad m] in
theorem readWords_of_read {s : Surroundings} {command? : Option Subcommand} {g : Grammar α}
    {words : List (List Char)} {a : Arguments α} (h : g.read words = .ok a) :
    (readWords s command? g words : Run m (Arguments α)) = pure a := by
  rw [readWords, h]

/-- Checks none of which has something to say. -/
theorem forM_eq_pure {xs : List α} {check : α → Run m Unit} (h : ∀ x ∈ xs, check x = pure ()) :
    xs.forM check = pure () := by
  induction xs with
  | nil => rfl
  | cons x xs ih =>
      obtain ⟨hx, hxs⟩ := List.forall_mem_cons.mp h
      show (check x >>= fun _ => xs.forM check) = pure ()
      rw [hx, pure_bind]
      exact ih hxs

theorem mem_options_of_has [DecidableEq α] {a : Arguments α} {option : α} (h : a.has option) :
    option ∈ a.options := by
  simp only [Arguments.has, List.any_eq_true, decide_eq_true_eq] at h
  rw [Arguments.options, List.mem_eraseDups, List.mem_map]
  exact h

theorem has_of_value? [DecidableEq α] {a : Arguments α} {option : α} {value : List Char}
    (h : a.value? option = some value) : a.has option := by
  obtain ⟨entry, hentry, -⟩ := Option.map_eq_some_iff.mp h
  rw [List.findRev?_eq_find?_reverse] at hentry
  have hmem := List.mem_reverse.mp (List.mem_of_find?_eq_some hentry)
  have hname := List.find?_some (p := fun entry : α × List Char => decide (entry.1 = option)) hentry
  exact List.any_eq_true.mpr ⟨entry, hmem, hname⟩

/-! ## Whole runs -/

/-- What a run leaves behind that writes to no log file. -/
def Run.report : Except Ending Unit × Session → Report
  | (.ok (), session) => ⟨session.output, 0, none⟩
  | (.error ending, session) => ⟨session.output ++ ending.output, ending.exitCode, none⟩

theorem run_eq_map [Image.Decoder] {host : Host m} {s : Surroundings}
    {words : List (List Char)} {a : Arguments CommonOption}
    (hread : commonGrammar.read words = .ok a)
    (hlog : a.value? .logFile = none) :
    run host s words = Run.report <$> Run.on (runWords host s words) {} := by
  have hnone : ∀ text : List Char, (do
      let a ← (commonGrammar.read words).toOption
      some (← a.value? .logFile, text)) = none := by
    intro text
    simp [hread, hlog, Except.toOption]
  unfold run
  rw [map_eq_pure_bind]
  congr 1
  funext ⟨result, session⟩
  simp only [hnone]
  cases result <;> rfl

end TokenCatalog.Command
