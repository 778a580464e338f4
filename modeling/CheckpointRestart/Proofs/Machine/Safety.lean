import CheckpointRestart.Proofs.Machine.Soundness
import CheckpointRestart.Proofs.Program.Reader.Outcome
import CheckpointRestart.Storage.InMemory
import Mathlib

/-! # Checked functions run safely

A function that passes the scoping check never fails because of its form: no run comes to a value
that is not defined, to a merge that lacks an incoming value or stands behind other instructions,
or to the end of a block without a branch. Each step keeps what is known of the place control has
come to, and that is enough to rule these failures out for the next step.
-/

namespace CheckpointRestart

variable {σ : Type} {f : Function} {i : Instruction} {b : BlockId} {done rest : List Instruction}

namespace Reader.Returned

theorem checked (h : Reader.Returned f) (passes : f.checkScoping = .ok ()) : f.Checked where
  coherent := h.numbered.coherent
  wellFormed := h.wellFormed
  strict := (Function.checkScoping_eq_ok_iff h.wellFormed).mp passes
  productive b i hi result := (h.productive b i hi).symm.trans result

end Reader.Returned

/-- A run that goes on from a place of which enough is known, or that has not failed because of the
form of its function. -/
def Progress.Safe (f : Function) : Progress σ → Prop
  | .running c s => ∃ done, f.Sound c.block done c.todo s.env
  | .done r _ => ∀ e, r = .error e → e.isFormFault = false

namespace Function.Sound

theorem renamed_self (ok : f.Checked) {env : Env} (h : f.Sound b done (i :: rest) env) :
    Renamed (fun e _ => e.isFormFault = false) env env id f f i i where
  result := rfl
  op := (Op.mapOperands_eq_self fun _ _ => rfl).symm
  values _ _ := rfl
  names v _ hv none _ := by
    obtain ⟨a, found⟩ := h.operand ok hv
    rw [found] at none
    cases none
  types _ _ := rfl
  type _ _ := rfl
  faults fault form := by
    cases inner : fault.isFormFault with
    | false => exact inner
    | true => exact absurd (form inner) (by simp [h.plain i List.mem_cons_self])
  division := rfl
  same _ form := form

variable [Storage σ]

/-- One step keeps a run safe. -/
theorem safe_advance (ok : f.Checked) (config : RunConfig) {c : Control} {s : State σ}
    (h : f.Sound c.block done c.todo s.env) : (advanceRun f config c s).Safe f := by
  obtain ⟨b, todo⟩ := c
  cases todo with
  | nil => exact absurd rfl h.more
  | cons i rest =>
    have stepped := (h.renamed_self ok).stepped config.haltAfter (s := s) rfl
    simp only [advanceRun]
    generalize execInstruction f config.haltAfter i s = r at stepped
    cases stepped with
    | @error e _ t form =>
      rintro _ ⟨⟩
      exact form
    | @ok flow t fits =>
      cases flow with
      | next result => exact ⟨_, h.next ok fits⟩
      | jump d =>
        obtain rfl := h.rest_eq_nil ok.wellFormed.toShaped fits.1
        change (Progress.ofEnter (Exec.enter f (some b) d { t with env := s.env })).Safe f
        have enter := Exec.enter_run (s := { t with env := s.env }) (h.ready ok fits.2)
        rw [enter]
        exact ⟨_, h.jump ok fits.2⟩
      | leave value =>
        intro e error
        cases error
      | halt =>
        intro e error
        cases error

theorem safe_continueSteps (ok : f.Checked) {config : RunConfig} {c : Control} {s : State σ}
    (h : f.Sound c.block done c.todo s.env) (steps : Nat) :
    ∀ e, (continueSteps f config steps c s).1 = .error e → e.isFormFault = false := by
  induction steps generalizing c s done with
  | zero =>
    intro e failed
    have more : c.todo.isEmpty = false := by simpa using h.more
    rw [continueSteps, more] at failed
    cases failed
    rfl
  | succ steps ih =>
    intro e failed
    have safe := h.safe_advance ok config
    rw [continueSteps] at failed
    cases next : advanceRun f config c s with
    | running c' s' =>
      rw [next] at safe failed
      obtain ⟨_, sound⟩ := safe
      exact ih sound e failed
    | done r s' =>
      rw [next] at safe failed
      exact safe e failed

end Function.Sound

/-- A function that was read, has no merge in its first block and passes the scoping check never
fails because of its form, whatever it is given and however long it runs. -/
theorem runFunction_error_of_checkScoping {text : String} {p : Program}
    (read : Program.read text = .ok p) (mem : f ∈ p.functions)
    (plain : ∀ i ∈ f.body f.entry, i.op.isPhi = false) (passes : f.checkScoping = .ok ())
    [Storage σ] (config : RunConfig) (args : List Value)
    (count : args.length = f.params.length) (s : State σ) :
    ∀ e, (runFunction f config args s).1 = .error e → e.isFormFault = false := by
  intro e failed
  have ok := (Program.returned_of_read read f mem).checked passes
  have none : (f.block f.entry).phis = [] := takeWhile_of_plain plain
  obtain ⟨env, given, begin⟩ := beginRun_eq f s count
  rw [runFunction, begin f rfl, Exec.enter_none_run, none] at failed
  exact (ok.sound_entry none given).safe_continueSteps ok config.stepLimit e failed

/-- Counts down from its argument and divides by the count. -/
def divideText : String :=
  "fn divide(%n: i32) -> i32 \x7b\nentry:\n  br loop\nloop:\n" ++
  "  %i = phi i32 [%n, entry], [%next, loop]\n  %q = div i32 12, %i\n  %next = sub %i, i32 1\n" ++
  "  %more = cmp gt %q, i32 0\n  condbr %more, loop, exit\nexit:\n  ret %q\n\x7d\n"

def divide : Function where
  name := "divide"
  params := [⟨0⟩]
  returns := .int 32
  values := #[⟨"n", .int 32⟩, ⟨"i", .int 32⟩, ⟨"q", .int 32⟩, ⟨"next", .int 32⟩, ⟨"more", .int 1⟩]
  blocks := #[
    ⟨"entry", [.effect (.br ⟨1⟩)]⟩,
    ⟨"loop", [
      .define ⟨1⟩ (.phi [(.value ⟨0⟩, ⟨0⟩), (.value ⟨3⟩, ⟨1⟩)]),
      .define ⟨2⟩ (.binary .div (.const (.int 32 12)) (.value ⟨1⟩)),
      .define ⟨3⟩ (.binary .sub (.value ⟨1⟩) (.const (.int 32 1))),
      .define ⟨4⟩ (.compare .gt (.value ⟨2⟩) (.const (.int 32 0))),
      .effect (.condBr (.value ⟨4⟩) ⟨1⟩ ⟨2⟩)]⟩,
    ⟨"exit", [.effect (.ret (some (.value ⟨2⟩)))]⟩]
  layout := [⟨0⟩, ⟨1⟩, ⟨2⟩]

/-- The third time round the loop the count is zero. -/
theorem runFunction_error_of_divide :
    Program.read divideText = .ok ⟨[divide]⟩ ∧
    (runFunction divide ⟨100, none⟩ [.int 32 2]
      (.initial (.new .default (∅ : InMemory) (.still 5)))).1 =
        .error (.divisionByZero "%q = div i32 12, %i") ∧
    (ExecError.divisionByZero "%q = div i32 12, %i").isFormFault = false := by
  have read : Program.read divideText = .ok ⟨[divide]⟩ := eq_ok_of_toOption (by decide +kernel)
  have failed : (runFunction divide ⟨100, none⟩ [.int 32 2]
      (.initial (.new .default (∅ : InMemory) (.still 5)))).1 =
        .error (.divisionByZero "%q = div i32 12, %i") := by
    decide +kernel
  exact ⟨read, failed, runFunction_error_of_checkScoping read (List.mem_singleton_self _)
    (by decide) (eq_ok_of_toOption (by cbv)) _ _ rfl _ _ failed⟩

end CheckpointRestart
