import Chalkboard.Proofs.Course
import Chalkboard.Proofs.Keeping

/-! # Declarations are stable

Between any two moments of a run, the later one has all that was declared at the earlier one: the
names of global memory in their order, the constants with their values, and the forms of all other
cells, but for the names that loops of the main program took for their counters. The same holds of
the frame of a call as long as the call is active, with the loops that the call itself runs. One
step keeps the frame of a level, and so does every stretch of steps that does not leave the level.
-/

namespace Chalkboard

/-- The name that a loop took for its counter at this moment, if the loop runs in the frame of the
given level. Level 0 is global memory, and level `n + 1` is the frame of the call inside of `n`
others. -/
def Moment.counterAt (n : Nat) (s : Moment) : List String :=
  match s.deed with
  | .bound counter => if n = s.machine.env.depth then [key counter] else []
  | _ => []

def countersAt (n : Nat) (moments : List Moment) : List String := moments.flatMap (·.counterAt n)

theorem Follows.framesWellFormed {m : Machine} {s : Moment} (h : Follows m s)
    (hwf : m.env.FramesWellFormed) : s.machine.env.FramesWellFormed := by
  cases h with
  | still henv => exact henv ▸ hwf
  | wrote hw => exact hw.framesWellFormed hwf
  | bound hb => exact (Environment.change_of_bindCounter hb).1.framesWellFormed hwf
  | entered params args => exact hwf.push (Frame.wellFormed_ofArguments params args)
  | left caller => exact hwf.pop

/-- A step keeps the frame of every level that it does not leave. -/
theorem Follows.keepsLevel {m : Machine} {s : Moment} {n : Nat} (h : Follows m s)
    (hwf : m.env.FramesWellFormed) (hn : n ≤ s.machine.env.depth) :
    m.env.KeepsLevel n (s.counterAt n) s.machine.env := by
  cases h with
  | still henv => exact .of_getElem?_eq (by rw [henv])
  | wrote hw => exact hw.keepsLevel hwf n
  | bound hb => exact Environment.keepsLevel_of_bindCounter hb n
  | entered params args => exact .push m.env _
  | left caller => exact .pop hn

theorem Course.From.framesWellFormed {first : Machine} {c : Course} (h : c.From first)
    (hfirst : first.env.FramesWellFormed) : ∀ s ∈ c.moments, s.machine.env.FramesWellFormed := by
  refine h.steps.induction _ _ (fun _ _ hstep hwf => hstep.framesWellFormed hwf) fun hne => ?_
  have hhead : c.moments.head hne = ⟨.started, first⟩ :=
    Option.some.inj ((List.head?_eq_some_head hne).symm.trans h.begins)
  rw [hhead]
  exact hfirst

/-- By induction on the moments after the first. -/
theorem keepsLevel_of_isChain {s s' : Moment} {after : List Moment} {n : Nat}
    (hsteps : (s :: after).IsChain fun s s' => Follows s.machine s')
    (hwf : s.machine.env.FramesWellFormed) (hlast : (s :: after).getLast? = some s')
    (hn : ∀ t ∈ after, n ≤ t.machine.env.depth) :
    s.machine.env.KeepsLevel n (countersAt n after) s'.machine.env := by
  induction after generalizing s with
  | nil =>
    cases hlast
    exact .refl _
  | cons t after ih =>
    obtain ⟨hstep, hsteps⟩ := List.isChain_cons_cons.mp hsteps
    rw [List.forall_mem_cons] at hn
    rw [List.getLast?_cons_cons] at hlast
    exact (hstep.keepsLevel hwf hn.1).trans (ih hsteps (hstep.framesWellFormed hwf) hlast hn.2)

/-- A run under watch is the run, step by step from its first machine. Between a moment and a later
one, global memory keeps what was declared, with the counters of the main program as the only
exception; so does the frame of each call that is active all the time, with the counters of that
call. -/
theorem declarations_stable (rounds : Nat) (p : Program) (m : Machine) :
    Watch.plain (p.watch rounds m) = p.run rounds m ∧
    (p.course rounds m).From (m.load p) ∧
    ∀ s after s', s :: after <:+: (p.course rounds m).moments → after.getLast? = some s' →
      s.machine.env.globals.Keeps (countersAt 0 after) s'.machine.env.globals ∧
      ∀ n frame, s.machine.env.frames.reverse[n]? = some frame →
        (∀ t ∈ after, n < t.machine.env.depth) →
        ∃ frame', s'.machine.env.frames.reverse[n]? = some frame' ∧
          frame.Keeps (countersAt (n + 1) after) frame' := by
  have hcourse := p.from_course rounds m
  refine ⟨p.plain_watch rounds m, hcourse, fun s after s' hpart hlast => ?_⟩
  have hsteps : (s :: after).IsChain fun s s' => Follows s.machine s' := hcourse.steps.infix hpart
  have hlast : (s :: after).getLast? = some s' := by
    rw [List.getLast?_cons, hlast]
    rfl
  have hwf : s.machine.env.FramesWellFormed :=
    hcourse.framesWellFormed (Environment.framesWellFormed_ofProgram p) s
      (hpart.subset List.mem_cons_self)
  constructor
  · obtain ⟨globals, hglobals, hkeeps⟩ :=
      keepsLevel_of_isChain (n := 0) hsteps hwf hlast (fun _ _ => Nat.zero_le _) _ rfl
    cases hglobals
    exact hkeeps
  · exact fun n frame hframe hactive =>
      keepsLevel_of_isChain (n := n + 1) hsteps hwf hlast hactive frame hframe

/-- A call takes a text of its own for the counter of a loop; the constant of the main program
stays. -/
theorem declarations_stable_counter :
    let number (x : Float) : Expr := .literal (.number x)
    let count : Subroutine := ⟨"Count", [], none,
      [.declare ["k"] "STRING", .forTo "k" (number 2) (number 1) (number 1) []]⟩
    let p : Program := ⟨[.statement (.constant "Unit" (.literal (.text "cm"))),
      .statement (.call "Count" []), .subroutine count]⟩
    let moments := (p.course 1 (Machine.start [])).moments
    ∃ s after s' frame, (s :: after <:+: moments ∧ after.getLast? = some s' ∧
        s.machine.env.frames.reverse[0]? = some frame ∧ ∀ t ∈ after, 0 < t.machine.env.depth) ∧
      s.machine.env.globals.get? "UNIT" = some (.constant (.text "cm")) ∧
      s'.machine.env.globals.get? "UNIT" = some (.constant (.text "cm")) ∧
      frame.get? "K" = some (.scalar "STRING" (.default "STRING")) ∧
      ∃ frame' v, s'.machine.env.frames.reverse[0]? = some frame' ∧
        frame'.get? "K" = some (.scalar "INTEGER" v) := by
  intro number count p moments
  have hlength : 4 < moments.length := by decide
  let s := moments.get ⟨4, hlength⟩
  let after := (moments.drop 5).take 4
  have hafter : after ≠ [] := List.ne_nil_of_length_pos (by decide)
  let frame : Frame := .ofList [("K", .scalar "STRING" (.default "STRING"))]
  have hpart : s :: after <:+: moments := by
    have htake : (moments.drop 4).take 5 = s :: after := by
      rw [List.drop_eq_getElem_cons hlength, List.take_succ_cons]
      rfl
    rw [← htake]
    exact (List.take_prefix ..).isInfix.trans (List.drop_suffix ..).isInfix
  have hlast : after.getLast? = some (after.getLast hafter) := List.getLast?_eq_some_getLast hafter
  have hframe : s.machine.env.frames.reverse[0]? = some frame := by
    subst s moments p count number
    rfl
  have hactive : ∀ t ∈ after, 0 < t.machine.env.depth := by decide
  have hunit : s.machine.env.globals.get? "UNIT" = some (.constant (.text "cm")) := by
    subst s moments p count number
    rfl
  have hbound : "K" ∈ countersAt 1 after := by decide
  obtain ⟨hglobals, hframes⟩ :=
    (declarations_stable 1 p (Machine.start [])).2.2 s after _ hpart hlast
  obtain ⟨frame', hframe', hkeeps⟩ := hframes 0 frame hframe hactive
  obtain ⟨v, hv⟩ := hkeeps.counters "K" hbound
  exact ⟨s, after, _, frame, ⟨hpart, hlast, hframe, hactive⟩, hunit,
    hglobals.constants "UNIT" _ hunit rfl, rfl, frame', v, hframe', hv⟩

end Chalkboard
