import Chalkboard.Proofs.AlikeTokens
import Chalkboard.Proofs.DeclarationOrder
import Chalkboard.Proofs.Isolation
import Chalkboard.Proofs.Keeping
import Chalkboard.Proofs.Partition
import Chalkboard.Proofs.UpperCase
import Chalkboard.Proofs.WellFormed

/-! # The names of memory are words

Whatever a program that was read from a text does, the names in global memory are words, and so are
the types there. New names stand behind the old ones. Calls only write values into global memory, so
that the statements of the main program alone have to be followed through their names.
-/

namespace Chalkboard

/-! ## Programs of words -/

/-- Letters, digits and underscores, and at least one of them. -/
def IsWord (s : String) : Prop := s.toList ≠ [] ∧ s.toList.all Scanner.continuesWord = true

instance (s : String) : Decidable (IsWord s) := inferInstanceAs (Decidable (_ ∧ _))

theorem IsWord.key {s : String} (h : IsWord s) : IsWord (key s) := by
  have hkey : (Chalkboard.key s).toList = s.toList.map Char.toUpper := by
    rw [Chalkboard.key, Text.upper, String.toList_ofList]
  unfold IsWord
  rw [hkey]
  constructor
  · rw [ne_eq, List.map_eq_nil_iff]
    exact h.1
  · rw [List.all_map, Function.comp_def]
    simp only [continuesWord_toUpper]
    exact h.2

/-- A word as it is, and for any other text some word. -/
def asWord (s : String) : String := if IsWord s then s else "X"

theorem asWord_eq_iff {s : String} : asWord s = s ↔ IsWord s := by
  unfold asWord
  split
  · rename_i h
    exact ⟨fun _ => h, fun _ => rfl⟩
  · rename_i h
    constructor
    · rintro rfl
      exact absurd (by decide) h
    · intro hword
      exact absurd hword h

theorem isWord_of_map_asWord {names : List String} (h : names.map asWord = names) :
    ∀ name ∈ names, IsWord name := by
  have hname := List.map_inj_left.mp (h.trans (List.map_id names).symm)
  exact fun name h => asWord_eq_iff.mp (hname name h)

theorem Tiled.rename_asWord {before rest : List Char} {ts : List Located}
    (h : Tiled before rest ts) : ts.map (Located.rename asWord) = ts := by
  induction h with
  | nil => rfl
  | @cons before gap word rest t ts _ _ hlongest _ _ ih =>
    have ht : t.rename asWord = t := by
      obtain ⟨token, start, stop⟩ := t
      have hspelled := hlongest.spelled
      cases hspelled with
      | @name c cs hc hcs =>
        have hword : IsWord (String.ofList (c :: cs)) := by
          unfold IsWord
          rw [String.toList_ofList, List.all_cons, continuesWord_eq, hc, Bool.true_or,
            Bool.true_and, List.all_eq_true]
          exact ⟨List.cons_ne_nil _ _, hcs⟩
        rw [Located.rename, Token.rename, asWord_eq_iff.mpr hword]
      | _ => rfl
    rw [List.map_cons, ht, ih]

/-- Every name and every type of a program that is read from a text is a word. -/
theorem Program.rename_asWord {source : String} {p : Program}
    (h : Program.ofSource source = .ok p) : p.rename asWord = p := by
  have hkeeps : Parser.Similar.KeepsTypes asWord := by
    unfold Parser.Similar.KeepsTypes
    decide
  unfold Program.ofSource at h
  split at h
  · cases h
  · rename_i ts hscan
    split at h
    · cases h
    · rename_i q hparse
      cases h
      have hsame := Program.parse_rename hkeeps source.utf8ByteSize ts
      rw [(scan_partitions source ts hscan).tiled.rename_asWord, hparse] at hsame
      exact (Except.ok.inj hsame).symm

/-! ## Memory of words -/

/-- The type of the cell is a word, and of an array that of its elements too. -/
structure Outline.Worded (outline : Outline) : Prop where
  type : IsWord outline.type
  elements : ∀ lower upper elementType, outline.form = .array lower upper elementType →
    IsWord elementType

/-- The names of a frame and the types of its cells are words. -/
structure Frame.Worded (frame : Frame) : Prop where
  names : ∀ name ∈ frame.keys, IsWord name
  types : ∀ entry ∈ frame.entries, entry.2.outline.Worded

namespace Frame

variable {frame frame' : Frame}

theorem keys_eq_outline (frame : Frame) : frame.keys = frame.outline.map Prod.fst := by
  simp [Dict.keys, outline]

theorem Worded.of_outline (hw : frame.Worded) (h : frame'.outline = frame.outline) :
    frame'.Worded := by
  have htypes : ∀ f : Frame, (∀ entry ∈ f.entries, entry.2.outline.Worded) ↔
      ∀ entry ∈ f.outline, entry.2.Worded := by
    intro f
    rw [outline, List.forall_mem_map]
  constructor
  · rw [keys_eq_outline, h, ← keys_eq_outline]
    exact hw.names
  · rw [htypes, h, ← htypes]
    exact hw.types

theorem worded_empty : Worded .empty where
  names _ h := nomatch h
  types _ h := nomatch h

theorem Worded.insert (hw : frame.Worded) {k : String} {cell : Cell} (hk : IsWord k)
    (hcell : cell.outline.Worded) : Worded (frame.insert k cell) := by
  constructor
  · intro name hname
    rw [Dict.keys_insert] at hname
    split at hname
    · exact hw.names name hname
    · rcases List.mem_append.mp hname with hname | hname
      · exact hw.names name hname
      · exact List.mem_singleton.mp hname ▸ hk
  · intro entry hentry
    rcases Dict.mem_insert hentry with rfl | hentry
    · exact hcell
    · exact hw.types entry hentry

theorem Worded.modify (hw : frame.Worded) (k : String) {f : Cell → Cell}
    (hf : ∀ cell : Cell, cell.outline.Worded → (f cell).outline.Worded) :
    Worded (frame.modify k f) := by
  constructor
  · rw [Dict.keys_modify]
    exact hw.names
  · intro entry hentry
    rcases Dict.mem_modify hentry with hentry | ⟨old, hold, heq⟩
    · exact hw.types entry hentry
    · exact heq ▸ hf old.2 (hw.types old hold)

end Frame

namespace Environment

variable {env env' : Environment}

/-- The record types that can be declared have words for names. -/
def WordedTypes (env : Environment) : Prop := ∀ name t, env.type? name = some t → IsWord t.name

/-- Global memory has at most got new names, at its end, and all names and types are words if they
were. -/
structure Extends (env env' : Environment) : Prop where
  types : env'.types = env.types
  keys : env.globals.keys <+: env'.globals.keys
  worded : env.WordedTypes → env.globals.Worded → env'.globals.Worded

theorem WordedTypes.of_eq (hw : env.WordedTypes) (h : env'.types = env.types) :
    env'.WordedTypes := by
  unfold WordedTypes type? at *
  rw [h]
  exact hw

namespace Extends

theorem refl (env : Environment) : Extends env env := ⟨rfl, List.prefix_refl _, fun _ h => h⟩

theorem trans {a b c : Environment} (hab : Extends a b) (hbc : Extends b c) : Extends a c where
  types := hbc.types.trans hab.types
  keys := hab.keys.trans hbc.keys
  worded htypes hw := hbc.worded (htypes.of_eq hab.types) (hab.worded htypes hw)

theorem of_outline (htypes : env'.types = env.types)
    (h : env'.globals.outline = env.globals.outline) : Extends env env' where
  types := htypes
  keys := by
    rw [Frame.keys_eq_outline, Frame.keys_eq_outline, h]
  worded _ hw := hw.of_outline h

theorem bind {name : String} {cell : Cell} (hname : IsWord name)
    (hcell : env.WordedTypes → cell.outline.Worded) : Extends env (env.bind name cell) := by
  obtain ⟨globals, frames, types, subroutines⟩ := env
  cases frames with
  | nil =>
    exact ⟨rfl, globals.prefix_keys_insert _ _, fun htypes hw => hw.insert hname.key (hcell htypes)⟩
  | cons frame frames => exact ⟨rfl, List.prefix_refl _, fun _ hw => hw⟩

theorem update (name : String) {f : Cell → Cell}
    (hf : ∀ cell : Cell, cell.outline.Worded → (f cell).outline.Worded) :
    Extends env (env.update name f) := by
  obtain ⟨globals, frames, types, subroutines⟩ := env
  have hmodify : Extends ⟨globals, frames, types, subroutines⟩
      ⟨globals.modify (key name) f, frames, types, subroutines⟩ :=
    ⟨rfl, by rw [Dict.keys_modify], fun _ hw => hw.modify _ hf⟩
  cases frames with
  | nil => exact hmodify
  | cons frame frames =>
    unfold Environment.update
    dsimp only
    split
    · exact ⟨rfl, List.prefix_refl _, fun _ hw => hw⟩
    · exact hmodify

end Extends

theorem worded_setScalar (v : Value) (cell : Cell) (h : cell.outline.Worded) :
    (cell.setScalar v).outline.Worded where
  type := h.type
  elements _ _ _ hform := nomatch hform

theorem worded_setField (field : String) (v : Value) (cell : Cell) (h : cell.outline.Worded) :
    (cell.setField field v).outline.Worded := by
  obtain ⟨type, isConstant, storage⟩ := cell
  cases storage with
  | record fields => exact ⟨h.type, fun _ _ _ hform => nomatch hform⟩
  | scalar w => exact h
  | array store => exact h

theorem extends_declareFold {cell : Environment → Cell}
    (hcell : ∀ env : Environment, env.WordedTypes → (cell env).outline.Worded) {names : List String}
    (hnames : ∀ name ∈ names, IsWord name) (env : Environment) :
    env.Extends (names.foldl (fun env name =>
      if env.current.contains (key name) then env else env.bind name (cell env)) env) := by
  induction names generalizing env with
  | nil => exact .refl env
  | cons name names ih =>
    rw [List.forall_mem_cons] at hnames
    rw [List.foldl_cons]
    split
    · exact ih hnames.2 env
    · exact (Extends.bind hnames.1 (hcell env)).trans (ih hnames.2 _)

theorem extends_declare {names : List String} {type : String} (hnames : ∀ name ∈ names, IsWord name)
    (htype : IsWord type) (env : Environment) : env.Extends (env.declare names type) := by
  apply extends_declareFold _ hnames
  intro env htypes
  unfold newCell
  split
  · rename_i t ht
    exact ⟨htypes type t ht, fun _ _ _ hform => nomatch hform⟩
  · exact ⟨htype, fun _ _ _ hform => nomatch hform⟩

theorem extends_of_declareArrays {names : List String} {lower upper : Value} {type : String}
    (hnames : ∀ name ∈ names, IsWord name) (htype : IsWord type)
    (h : env.declareArrays names lower upper type = .ok env') : env.Extends env' := by
  unfold declareArrays at h
  simp only [Bind.bind, Except.bind] at h
  split at h
  · cases h
  · split at h
    · cases h
    · split at h
      · cases h
      · cases h
        apply extends_declareFold _ hnames
        intro env _
        constructor
        · show IsWord "ARRAY"
          decide
        · rintro _ _ _ ⟨⟩
          exact htype

theorem extends_of_declareConstant {name : String} {v : Value} (hname : IsWord name)
    (h : env.declareConstant name v = .ok env') : env.Extends env' := by
  unfold declareConstant at h
  split at h
  · cases h
    refine .bind hname fun _ => ⟨?_, fun _ _ _ hform => nomatch hform⟩
    show IsWord "CONSTANT"
    decide
  · split at h
    · cases h
      exact .refl env
    · cases h

theorem extends_of_store {name : String} {field : Option String} {v : Value}
    (h : env.store name field v = .ok env') : env.Extends env' := by
  rcases store_cases h with ⟨type, w, rfl, -, rfl⟩ | ⟨field, type, fields, w, rfl, -, -, rfl⟩
  · exact .update name (worded_setScalar v)
  · exact .update name (worded_setField field v)

theorem extends_storeElement (env : Environment) (name : String) (i : Int) (v : Value) :
    env.Extends (env.storeElement name i v) := by
  apply Extends.update name
  intro cell hcell
  rw [Cell.outline_setElement]
  exact hcell

theorem extends_of_bindCounter {name : String} {v : Value} (hname : IsWord name)
    (h : env.bindCounter name v = .ok env') : env.Extends env' := by
  unfold bindCounter at h
  split at h
  · cases h
  · cases h
    refine .bind hname fun _ => ⟨?_, fun _ _ _ hform => nomatch hform⟩
    show IsWord "INTEGER"
    decide

theorem extends_writeCounter (env : Environment) (name : String) (x : Float) :
    env.Extends (env.writeCounter name x) := by
  obtain ⟨globals, frames, types, subroutines⟩ := env
  cases frames with
  | nil =>
    refine ⟨rfl, ?_, fun _ hw => hw.modify _ (worded_setScalar _)⟩
    show globals.keys <+: (globals.modify (key name) _).keys
    rw [Dict.keys_modify]
  | cons frame frames => exact ⟨rfl, List.prefix_refl _, fun _ hw => hw⟩

end Environment

/-! ## Runs -/

/-- In all environments that were shown the names of global memory are words, and each of these
environments has the names of the earlier ones, in the same order. -/
structure Machine.Orderly (m : Machine) : Prop where
  types : m.env.WordedTypes
  worded : ∀ env ∈ m.environments, env.globals.Worded
  ordered : m.environments.Pairwise fun later earlier => earlier.globals.keys <+: later.globals.keys

open Exec

namespace Machine.Orderly

variable {m : Machine} {env : Environment}

theorem change (h : m.Orderly) (hextends : m.env.Extends env) : Orderly { m with env := env } := by
  obtain ⟨htypes, hworded, hordered⟩ := h
  unfold environments at *
  rw [List.forall_mem_cons] at hworded
  rw [List.pairwise_cons] at hordered
  constructor
  · exact htypes.of_eq hextends.types
  · rw [environments, List.forall_mem_cons]
    exact ⟨hextends.worded htypes hworded.1, hworded.2⟩
  · rw [environments, List.pairwise_cons]
    exact ⟨fun earlier he => (hordered.1 earlier he).trans hextends.keys, hordered.2⟩

/-- An event shows no other environment than the present one. -/
theorem record (h : m.Orderly) {e : Event} (he : ∀ env, e.env? = some env → env = m.env) :
    Orderly (m.record e) := by
  obtain ⟨htypes, hworded, hordered⟩ := h
  cases hshown : e.env? with
  | none =>
    have hsame : (m.record e).environments = m.environments := by
      simp [environments, Machine.record, hshown]
    exact ⟨htypes, hsame ▸ hworded, hsame ▸ hordered⟩
  | some shown =>
    have hmore : (m.record e).environments = m.env :: m.environments := by
      simp [environments, Machine.record, hshown, he shown hshown]
    have hhere : ∀ earlier ∈ m.environments, earlier.globals.keys <+: m.env.globals.keys := by
      unfold environments at *
      rw [List.forall_mem_cons]
      exact ⟨List.prefix_refl _, (List.pairwise_cons.mp hordered).1⟩
    constructor
    · exact htypes
    · rw [hmore, List.forall_mem_cons]
      exact ⟨hworded m.env List.mem_cons_self, hworded⟩
    · rw [hmore, List.pairwise_cons]
      exact ⟨hhere, hordered⟩

theorem ask (h : m.Orderly) (name : String) : Orderly ((Exec.ask name).final m) := by
  have hr : Orderly (m.record (.asked name)) := h.record fun _ he => nomatch he
  cases ha : m.answers with
  | nil =>
    rw [final_of_error (ask_of_nil ha)]
    exact hr
  | cons answer answers =>
    rw [final_of_ok (ask_of_cons ha)]
    exact ⟨hr.types, hr.worded, hr.ordered⟩

theorem complete (h : m.Orderly) (stmt : Stmt) : Orderly (m.record (.completed stmt m.env)) := by
  apply h.record
  intro env he
  cases he
  rfl

theorem enter (h : m.Orderly) (frame : Frame) : Orderly (m.enter frame) := by
  have hpush : Orderly { m with env := m.env.push frame } :=
    h.change ⟨rfl, List.prefix_refl _, fun _ hw => hw⟩
  have hentered : Orderly { m with env := m.env.push frame, returning := none } :=
    ⟨hpush.types, hpush.worded, hpush.ordered⟩
  apply hentered.record
  intro env he
  cases he
  rfl

theorem leave {after : Machine} (h : after.Orderly) (caller : Machine) :
    Orderly (caller.leave after) := by
  have hpop : Orderly { after with env := after.env.pop } :=
    h.change ⟨rfl, List.prefix_refl _, fun _ hw => hw⟩
  exact ⟨hpop.types, hpop.worded, hpop.ordered⟩

end Machine.Orderly

/-- Inside of a call nothing but values changes in global memory, so that any names may be used
there. -/
theorem respects_orderly_inside :
    Respects fun m m' => m.env.frames ≠ [] → m.Orderly → m'.env.frames ≠ [] ∧ m'.Orderly where
  refl _ hframes h := ⟨hframes, h⟩
  trans hab hbc hframes h := by
    obtain ⟨hframes, h⟩ := hab hframes h
    exact hbc hframes h
  change hc hframes h := by
    have hdepth := hc.sameFixtures.depth
    unfold Environment.depth at hdepth
    constructor
    · rwa [← List.length_pos_iff, hdepth, List.length_pos_iff]
    · exact h.change (.of_outline hc.sameFixtures.types (hc.outline_globals hframes))
  ask name m hframes h := ⟨env_final_ask name m ▸ hframes, h.ask name⟩
  print _ _ hframes h := ⟨hframes, h.record fun _ he => nomatch he⟩
  complete stmt _ hframes h := ⟨hframes, h.complete stmt⟩
  giveBack _ _ hframes h := ⟨hframes, ⟨h.types, h.worded, h.ordered⟩⟩

/-- By induction on the number of calls that may still be nested. -/
theorem orderly_invokeAt (rounds : Nat) : ∀ n sub args,
    Moves (fun m m' => m.Orderly → m'.Orderly) (invokeAt rounds n sub args) := by
  intro n
  induction n with
  | zero => exact fun _ _ _ h => h
  | succ n ih =>
    intro sub args m h
    have hcalls : ∀ sub args, Moves
        (fun m m' => m.env.frames ≠ [] → m.Orderly → m'.env.frames ≠ [] ∧ m'.Orderly)
        (invokeAt rounds n sub args) := by
      intro sub args m hframes h
      rw [(isolated_invokeAt rounds n sub args m).frames]
      exact ⟨hframes, ih sub args m h⟩
    have hbody := respects_orderly_inside.carried hcalls fun sub args =>
      (isolated_invokeAt rounds n sub args).mono Isolated.keepsVariables
    rw [invokeAt, final_activation]
    have hafter :=
      (hbody.performAll rounds sub.body (m.enter (Environment.ofArguments sub.params args))).1
      (List.cons_ne_nil _ _) (h.enter _)
    exact hafter.2.leave m

section Statements

variable {call : CallRule}

abbrev KeepsOrder (m m' : Machine) : Prop := m.Orderly → m'.Orderly

theorem chains_keepsOrder : Chains KeepsOrder where
  refl _ h := h
  trans hab hbc h := hbc (hab h)

/-- The calls keep the order as well. -/
structure OrderlyCalls (call : CallRule) : Prop extends Chains KeepsOrder where
  calls : ∀ sub args, Moves KeepsOrder (call sub args)

theorem keepsOrder_changing {f : Environment → Except RuntimeError Environment}
    (hf : ∀ env env', f env = .ok env' → env.Extends env') : Moves KeepsOrder (changing f) := by
  intro m h
  cases hm : f m.env with
  | ok env =>
    rw [final_of_ok (changing_of_ok hm)]
    exact h.change (hf _ _ hm)
  | error e =>
    rw [final_of_error (changing_of_error hm)]
    exact h

theorem keepsOrder_completing {work : Exec Unit} (hwork : Moves KeepsOrder work) (stmt : Stmt) :
    Moves KeepsOrder (completing stmt work) := by
  rw [completing_eq]
  apply chains_keepsOrder.bind chains_keepsOrder.get
  intro now
  apply Moves.ite (chains_keepsOrder.pure ())
  exact chains_keepsOrder.bind hwork fun _ m h => h.complete stmt

namespace OrderlyCalls

variable (hR : OrderlyCalls call) (rounds : Nat)

include hR

theorem eval (e : Expr) : Moves KeepsOrder (e.eval call) :=
  Expr.moves_eval hR.toChains e fun name _ => hR.callFunction hR.calls name

theorem evalAll (es : List Expr) : Moves KeepsOrder (Expr.evalAll call es) :=
  Expr.moves_evalAll hR.toChains es fun name _ => hR.callFunction hR.calls name

theorem forTo {counter : String} {start stop step : Expr} {body : List Stmt}
    (hcounter : IsWord counter) (hbody : Moves KeepsOrder (Stmt.performAll rounds call body)) :
    Moves KeepsOrder ((Stmt.forTo counter start stop step body).perform rounds call) := by
  have hadvance : ∀ x, Moves KeepsOrder (changing fun env => .ok (env.writeCounter counter x)) := by
    intro x
    apply keepsOrder_changing
    rintro env _ ⟨⟩
    exact env.extends_writeCounter counter x
  rw [Stmt.perform]
  refine hR.bind (hR.eval start) fun first => ?_
  refine hR.bind (keepsOrder_changing fun _ _ h =>
    Environment.extends_of_bindCounter hcounter h) fun _ => ?_
  refine hR.bind (hR.eval step) fun step => ?_
  refine Moves.ite (hR.iterate ?_ rounds) (hR.fail _)
  refine hR.bind (hR.reading _) fun x => ?_
  refine hR.bind (hR.eval stop) fun stop => ?_
  refine Moves.ite (hR.pure false) ?_
  refine hR.bind hbody fun _ => ?_
  refine hR.bind hR.get fun now => ?_
  refine Moves.ite (hR.pure false) ?_
  exact hR.bind (hR.reading _) fun x => hR.bind (hadvance _) fun _ => hR.pure true

mutual

/-- Only the names that stand in a statement itself can come into global memory. -/
theorem perform : ∀ s : Stmt, s.rename asWord = s → Moves KeepsOrder (s.perform rounds call)
  | .declare names type, h => by
    obtain ⟨hnames, htype⟩ := Stmt.declare.inj h
    rw [Stmt.perform]
    apply keepsOrder_changing
    rintro env _ ⟨⟩
    exact Environment.extends_declare (isWord_of_map_asWord hnames) (asWord_eq_iff.mp htype) env
  | .declareArray names lower upper element, h => by
    obtain ⟨hnames, -, -, htype⟩ := Stmt.declareArray.inj h
    refine hR.bind (hR.eval lower) fun _ => ?_
    refine hR.bind (hR.eval upper) fun _ => ?_
    exact keepsOrder_changing fun _ _ hok =>
      Environment.extends_of_declareArrays (isWord_of_map_asWord hnames)
        (asWord_eq_iff.mp htype) hok
  | .constant name value, h => by
    obtain ⟨hname, -⟩ := Stmt.constant.inj h
    refine hR.bind (hR.eval value) fun _ => ?_
    exact keepsOrder_changing fun _ _ hok =>
      Environment.extends_of_declareConstant (asWord_eq_iff.mp hname) hok
  | .assign name field value, _ => by
    refine hR.bind (hR.reading _) fun _ => ?_
    refine hR.bind (hR.eval value) fun _ => ?_
    exact keepsOrder_changing fun _ _ hok => Environment.extends_of_store hok
  | .assignElement array index value, _ => by
    refine hR.bind (hR.reading _) fun _ => ?_
    refine hR.bind (hR.eval index) fun _ => ?_
    refine hR.bind (hR.lift _) fun i => ?_
    refine hR.bind (hR.eval value) fun v => ?_
    apply keepsOrder_changing
    rintro env _ ⟨⟩
    exact env.extends_storeElement array i v
  | .output exprs, _ =>
    hR.bind (hR.evalAll exprs) fun _ m h => h.record fun _ he => nomatch he
  | .input name, _ => by
    refine hR.bind (hR.reading _) fun _ => ?_
    refine hR.bind (fun m h => h.ask name) fun _ => ?_
    exact keepsOrder_changing fun _ _ hok => Environment.extends_of_store hok
  | .ifElse condition yes no, h => by
    obtain ⟨-, hyes, hno⟩ := Stmt.ifElse.inj h
    refine hR.bind (hR.eval condition) fun _ => ?_
    exact Moves.ite (performAll yes hyes) (performAll no hno)
  | .whileDo condition body, h => by
    obtain ⟨-, hbody⟩ := Stmt.whileDo.inj h
    refine hR.iterate ?_ rounds
    refine hR.bind (hR.eval condition) fun _ => ?_
    refine Moves.ite ?_ (hR.pure false)
    exact hR.bind (performAll body hbody) fun _ => hR.pure true
  | .repeatUntil body condition, h => by
    obtain ⟨hbody, -⟩ := Stmt.repeatUntil.inj h
    refine hR.iterate ?_ rounds
    refine hR.bind (performAll body hbody) fun _ => ?_
    exact hR.bind (hR.eval condition) fun _ => hR.pure _
  | .forTo counter start stop step body, h => by
    obtain ⟨hcounter, -, -, -, hbody⟩ := Stmt.forTo.inj h
    exact hR.forTo rounds (asWord_eq_iff.mp hcounter) (performAll body hbody)
  | .caseOf subject clauses otherwise, h => by
    obtain ⟨-, hclauses, hotherwise⟩ := Stmt.caseOf.inj h
    refine hR.bind (hR.reading _) fun v => ?_
    refine hR.bind (performFirst v clauses hclauses) fun found => ?_
    cases found with
    | true => exact hR.pure ()
    | false => exact performAll otherwise hotherwise
  | .call name args, _ =>
    hR.bind (hR.evalAll args) fun _ => hR.callProcedure hR.calls name _
  | .giveBack value, _ =>
    hR.bind (hR.eval value) fun _ _ h => ⟨h.types, h.worded, h.ordered⟩

theorem performAll : ∀ stmts : List Stmt, Stmt.renameAll asWord stmts = stmts →
    Moves KeepsOrder (Stmt.performAll rounds call stmts)
  | [], _ => hR.pure ()
  | stmt :: stmts, h => by
    obtain ⟨hstmt, hstmts⟩ := List.cons.inj h
    refine hR.bind (keepsOrder_completing (perform stmt hstmt) stmt) fun _ => ?_
    exact performAll stmts hstmts

theorem performFirst (v : Value) : ∀ clauses : List (Expr × Stmt),
    Stmt.renameClauses asWord clauses = clauses →
    Moves KeepsOrder (Stmt.performFirst rounds call v clauses)
  | [], _ => hR.pure false
  | (value, stmt) :: clauses, h => by
    obtain ⟨hclause, hclauses⟩ := List.cons.inj h
    have hstmt := keepsOrder_completing (perform stmt (Prod.mk.inj hclause).2) stmt
    refine hR.bind (hR.eval value) fun _ => Moves.ite ?_ ?_
    · exact hR.bind hstmt fun _ => hR.pure true
    · exact performFirst v clauses hclauses

end

end OrderlyCalls

end Statements

/-- In a run of a program that was read from a text, the names and the types of global memory are
words, and names that came in later stand further behind. -/
theorem Program.orderly_run {source : String} {p : Program} (h : Program.ofSource source = .ok p)
    (rounds : Nat) (answers : List String) :
    ((p.run rounds).final (Machine.start answers)).Orderly := by
  have hitems : p.items.map (Item.rename asWord) = p.items.map id := by
    rw [List.map_id]
    exact congrArg Program.items (Program.rename_asWord h)
  have hitem : ∀ item ∈ p.items, item.rename asWord = item := List.map_inj_left.mp hitems
  have hstatements : Stmt.renameAll asWord p.statements = p.statements := by
    rw [Stmt.renameAll_eq_map, ← List.map_id p.statements, List.map_map, List.map_inj_left]
    intro stmt hstmt
    obtain ⟨item, hmem, hsome⟩ := List.mem_filterMap.mp hstmt
    cases item with
    | statement s =>
      cases hsome
      exact Item.statement.inj (hitem _ hmem)
    | _ => cases hsome
  have htypes : (Environment.ofProgram p).WordedTypes := by
    intro name t ht
    rw [Environment.type?_ofProgram] at ht
    obtain ⟨item, hmem, hsome⟩ :=
      List.mem_filterMap.mp (List.mem_reverse.mp (List.mem_of_find?_eq_some ht))
    cases item with
    | recordType type =>
      cases hsome
      have htype := Item.recordType.inj (hitem _ hmem)
      exact asWord_eq_iff.mp (congrArg RecordType.name htype)
    | _ => cases hsome
  have hload : ((Machine.start answers).load p).Orderly := by
    constructor
    · exact htypes
    · intro env henv
      obtain rfl := List.mem_singleton.mp henv
      show Frame.Worded (Environment.ofProgram p).globals
      rw [(Environment.memory_ofProgram p).1]
      exact Frame.worded_empty
    · exact List.pairwise_singleton _ _
  have hcalls : OrderlyCalls (invokeAt rounds callLimit) :=
    ⟨chains_keepsOrder, orderly_invokeAt rounds callLimit⟩
  exact hcalls.performAll rounds p.statements hstatements _ hload

end Chalkboard
