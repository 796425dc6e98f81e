import Lox.Proofs.Grammar.Operators
import Lox.Proofs.Machine.Contexts
import Lox.Proofs.Methods.Preservation
import Lox.Proofs.Session.Identities

/-!
# The history of a session

The moments of all runs of a session, in whatever way these runs ended, make up its history. Every
class that a value of the session leads to was declared at one of them, and every use of `super` that
is still to be evaluated has its home in such a class.
-/

namespace Lox.Session

open Machine (State Config Outcome)

variable {s s' : Session} {source : String} {program : List Stmt} {steps : Nat} {status : Status}
  {moments : Config .flow → Prop}

/-- The source is accepted, and its run comes to the moment. -/
def PassesThrough (s : Session) (source : String) (moment : Config .flow) : Prop :=
  ∃ program t n, s.check source = (some program, t)
    ∧ (Config.ofProgram program t.σ).advance n = .inl moment

/-- The session is reached from a new one by running sources, whose runs came to these moments. -/
inductive ReachedThrough : Session → (Config .flow → Prop) → Prop
  | initial (sink : Sink) (time : Nat → Float) :
      ReachedThrough (.initial sink time) fun _ => False
  | run {s s' : Session} {moments : Config .flow → Prop} {steps : Nat} {source : String}
      {status : Status} (h : ReachedThrough s moments)
      (hrun : s.run steps source = some (status, s')) :
      ReachedThrough s' fun moment => moments moment ∨ s.PassesThrough source moment

/-- The moment comes before the `n`-th one of a run after those of the history. -/
def Earlier (moments : Config .flow → Prop) (start : Config .flow) (n : Nat)
    (moment : Config .flow) : Prop :=
  moments moment ∨ start.Before n moment

theorem earlier_zero (start : Config .flow) : Earlier moments start 0 = moments := by
  funext m
  simp [Earlier, Config.Before]

theorem earlier_succ {start c : Config .flow} {n : Nat} (h : start.advance n = .inl c) :
    Earlier moments start (n + 1) = fun m => Earlier moments start n m ∨ m = c := by
  funext m
  simp only [Earlier, or_assoc, Config.before_succ_last h]

theorem ReachedThrough.reachable (h : s.ReachedThrough moments) : s.Reachable := by
  induction h with
  | initial sink time => exact .initial sink time
  | run _ hrun ih => exact .run ih hrun

theorem Reachable.exists_moments (h : s.Reachable) : ∃ moments, s.ReachedThrough moments := by
  induction h with
  | initial sink time => exact ⟨_, .initial sink time⟩
  | run _ hrun ih =>
      obtain ⟨moments, hs⟩ := ih
      exact ⟨_, .run hs hrun⟩

/-- A run that ends passes through the moments before its end only. -/
theorem passesThrough_iff {t : Session} (hcheck : s.check source = (some program, t)) {n : Nat}
    {outcome : Outcome .flow} (hend : (Config.ofProgram program t.σ).advance n = .inr outcome)
    (moment : Config .flow) :
    s.PassesThrough source moment ↔ (Config.ofProgram program t.σ).Before n moment := by
  constructor
  · rintro ⟨program', t', k, hcheck', hmoment⟩
    rw [hcheck, Prod.mk.injEq, Option.some.injEq] at hcheck'
    obtain ⟨rfl, rfl⟩ := hcheck'
    refine ⟨k, Nat.lt_of_not_le fun hle => ?_, hmoment⟩
    obtain ⟨d, last, hd, hlast, hstep⟩ := Config.exists_end hend
    obtain ⟨j, rfl⟩ := Nat.exists_eq_add_of_lt (Nat.lt_of_lt_of_le hd hle)
    rw [Nat.add_assoc, Config.advance_add hlast, Config.advance, hstep] at hmoment
    cases hmoment
  · rintro ⟨k, -, hmoment⟩
    exact ⟨program, t, k, hcheck, hmoment⟩

/-- A source that is not accepted is not run. -/
theorem not_passesThrough (hcheck : s.check source = (none, s')) (moment : Config .flow) :
    ¬ s.PassesThrough source moment := by
  rintro ⟨program, t, n, hcheck', -⟩
  rw [hcheck] at hcheck'
  cases hcheck'

/-- An accepted program is what its source parses to. -/
theorem eq_of_check (h : s.check source = (some program, s')) :
    program = (s.parse source).1.1 := by
  unfold check at h
  split at h
  · cases h
  · next parsed t hparse =>
    split at h
    · cases h
    · cases h
      rw [hparse]

theorem operable_of_check (h : s.check source = (some program, s')) :
    Stmt.ListOperable program := by
  rw [eq_of_check h]
  exact Grammar.listOperable_parseProgram _ _

/-- A check keeps what is recorded for the nodes that the session has seen. -/
theorem known_of_check (hs : s.Sound) {checked : Option (List Stmt)}
    (h : s.check source = (checked, s')) (id : NodeId) (r : Option Nat) (hid : s.Known id r) :
    s'.Known id r := by
  cases checked with
  | none =>
      obtain ⟨hle, hσ⟩ := check_eq_none h
      exact ⟨Nat.lt_of_lt_of_le hid.1 hle, by rw [hσ]; exact hid.2⟩
  | some program =>
      obtain ⟨hle, -⟩ := check_eq_some (fun _ _ => trivial) h
      have hsame := (accepts_of_check hs h).2 id (.inl hid.1)
      exact ⟨Nat.lt_of_lt_of_le hid.1 hle, hsame.trans hid.2⟩

theorem frames_check {checked : Option (List Stmt)} (h : s.check source = (checked, s')) :
    s'.σ.frames = s.σ.frames ∧ s'.σ.objects = s.σ.objects := by
  cases checked with
  | none =>
      obtain ⟨-, hσ⟩ := check_eq_none h
      exact ⟨by rw [hσ], by rw [hσ]⟩
  | some program =>
      obtain ⟨-, -, -, hσ⟩ := check_eq_some (fun _ _ => trivial) h
      exact ⟨by rw [hσ], by rw [hσ]⟩

/-- All values of the session are housed by what was declared in its history. -/
def Housed (s : Session) (moments : Config .flow → Prop) : Prop :=
  s.σ.Housed (.of s.Known moments)

theorem housed_initial (sink : Sink) (time : Nat → Float) :
    (Session.initial sink time).Housed fun _ => False := by
  refine ⟨fun ⟨_, _, hc, _⟩ => hc.elim, fun {f x v} hv => ?_, fun {i o} ho => ?_,
    fun {i o x v} ho => ?_⟩
  · rcases Frames.get?_push_eq_some hv with hv | ⟨-, hv⟩
    · simp [Frames.get?, Frames.bindings, Frames.empty] at hv
    · obtain rfl := Bindings.eq_of_get?_singleton hv
      trivial
  · simp [initial, State.initial] at ho
  · simp [initial, State.initial] at ho

theorem Housed.check (h : s.Housed moments) (hs : s.Sound) {checked : Option (List Stmt)}
    (hcheck : s.check source = (checked, s')) : s'.Housed moments := by
  obtain ⟨hframes, hobjects⟩ := frames_check hcheck
  have hgrows : (Past.of s.Known moments).Grows (.of s'.Known moments) :=
    ⟨fun _ => id, known_of_check hs hcheck⟩
  exact (h.mono hgrows fun c hc => .inl hc).congr hframes hobjects

/-- The run of an accepted program starts at a housed moment. -/
theorem Housed.ofProgram (h : s'.Housed moments) (hcheck : s.check source = (some program, s'))
    (hprogram : Stmt.ListWellScoped s'.Known [] program) :
    (Config.ofProgram program s'.σ).Housed (.of s'.Known moments) := by
  have hproper : Stmt.ListProper s'.Known program :=
    hprogram.proper (by simp [Scopes.Plain, Scopes.distance?]) (operable_of_check hcheck)
  have hsupers := hprogram.listSupers_eq
  exact .inProgram h ⟨hproper, by simp [hsupers]⟩ (.done _)

theorem Housed.interpret {t : Session} (h : s'.Housed moments) (hs' : s'.Sound)
    (hcheck : s.check source = (some program, s'))
    (hprogram : Stmt.ListWellScoped s'.Known [] program)
    (hrun : s'.interpret steps program = some (status, t)) :
    t.Housed fun moment => moments moment ∨ s.PassesThrough source moment := by
  obtain ⟨outcome, hend, -, hσ, hid⟩ := exists_outcome hrun
  have hadvance := (h.ofProgram hcheck hprogram).advance
    (scoped_ofProgram hs'.state hs'.chain_eq hprogram) steps
  rw [hend] at hadvance
  have hknown : t.Known = s'.Known := by
    funext id r
    rw [Known, Known, hid, distances_interpret hrun]
  simp only [Housed, hknown, passesThrough_iff hcheck hend, hσ]
  exact hadvance

/-- All values of a session are housed by the classes that were declared in its history. -/
theorem ReachedThrough.housed (h : s.ReachedThrough moments) : s.Housed moments := by
  induction h with
  | initial sink time => exact housed_initial sink time
  | @run s s' moments steps source status hs hrun ih =>
      have hsound := hs.reachable.sound
      rcases run_cases hrun with ⟨hcheck, -⟩ | ⟨program, t, hcheck, hrun⟩
      · simpa [not_passesThrough hcheck] using ih.check hsound hcheck
      · obtain ⟨ht, hprogram⟩ := hsound.of_check hcheck
        exact (ih.check hsound hcheck).interpret ht hcheck hprogram hrun

/-- At every moment of the run of an accepted source, the uses of `super` that are still to be
evaluated have homes in classes that were declared before. -/
theorem ReachedThrough.housed_advance (h : s.ReachedThrough moments)
    (hcheck : s.check source = (some program, s')) {n : Nat} {c : Config .flow}
    (hc : (Config.ofProgram program s'.σ).advance n = .inl c) :
    c.Housed (.of s'.Known (Earlier moments (Config.ofProgram program s'.σ) n)) := by
  have hs := h.reachable.sound
  obtain ⟨hs', hprogram⟩ := hs.of_check hcheck
  have hadvance := ((h.housed.check hs hcheck).ofProgram hcheck hprogram).advance
    (scoped_ofProgram hs'.state hs'.chain_eq hprogram) n
  rwa [hc] at hadvance

end Lox.Session
