import Chalkboard.Proofs.WellFormed

/-! # What declarations leave for good

A frame only grows, and new names come last. A constant stays the constant it is, and every other
cell keeps the form it was declared with. Loops alone give a name a new form: one that is taken for
a counter is a variable for whole numbers from then on. All this is said of global memory and of the
frame of every active call, whichever of them a step reaches.
-/

namespace Chalkboard

theorem Dict.prefix_keys_insert {α : Type} (d : Dict α) (k : String) (a : α) :
    d.keys <+: (d.insert k a).keys := by
  rw [keys_insert]
  split
  · exact List.prefix_refl _
  · exact List.prefix_append ..

namespace Cell

variable {cell cell' : Cell}

theorem isConstant_of_outline_eq (h : cell'.outline = cell.outline) :
    cell'.isConstant = cell.isConstant :=
  congrArg Outline.isConstant h

/-- A constant is a single value, and its outline has that value. -/
theorem eq_of_outline_eq (hwf : cell.WellFormed) (hc : cell.isConstant = true)
    (h : cell'.outline = cell.outline) : cell' = cell := by
  obtain ⟨type, isConstant, storage⟩ := cell
  obtain ⟨type', isConstant', storage'⟩ := cell'
  have hshape := (hwf.constant hc).1
  cases storage with
  | array store => cases hshape
  | record fields => cases hshape
  | scalar v =>
    obtain ⟨rfl, rfl, hform⟩ := Outline.mk.inj h
    cases hc
    cases storage' with
    | scalar v' =>
      cases hform
      rfl
    | array store => cases hform
    | record fields => cases hform

end Cell

namespace Frame

variable {frame frame' frame'' : Frame} {bound bound' : List String}

/-- What stays of a frame in which loops took the given names for their counters. -/
structure Keeps (bound : List String) (frame frame' : Frame) : Prop where
  keys : frame.keys <+: frame'.keys
  constants : ∀ k cell, frame.get? k = some cell → cell.isConstant = true →
    frame'.get? k = some cell
  cells : ∀ k cell, frame.get? k = some cell → cell.isConstant = false →
    ∃ cell', frame'.get? k = some cell' ∧ cell'.isConstant = false ∧
      (k ∉ bound → cell'.outline = cell.outline)
  counters : ∀ k ∈ bound, ∃ v, frame'.get? k = some (.scalar "INTEGER" v)

namespace Keeps

theorem refl (frame : Frame) : Keeps [] frame frame where
  keys := List.prefix_refl _
  constants _ _ h _ := h
  cells _ cell h hc := ⟨cell, h, hc, fun _ => rfl⟩
  counters _ h := nomatch h

theorem trans (h : Keeps bound frame frame') (h' : Keeps bound' frame' frame'') :
    Keeps (bound ++ bound') frame frame'' where
  keys := h.keys.trans h'.keys
  constants k cell hk hc := h'.constants k cell (h.constants k cell hk hc) hc
  cells k cell hk hc := by
    obtain ⟨cell', hk', hc', ho⟩ := h.cells k cell hk hc
    obtain ⟨cell'', hk'', hc'', ho'⟩ := h'.cells k cell' hk' hc'
    refine ⟨cell'', hk'', hc'', fun hn => ?_⟩
    rw [List.mem_append, not_or] at hn
    rw [ho' hn.2, ho hn.1]
  counters k hk := by
    -- a name that is not bound again keeps its outline, which is that of a counter
    by_cases hk' : k ∈ bound'
    · exact h'.counters k hk'
    · obtain ⟨v, hv⟩ := h.counters k ((List.mem_append.mp hk).resolve_right hk')
      obtain ⟨cell, hcell, _, ho⟩ := h'.cells k _ hv rfl
      have ho : cell.outline = ⟨"INTEGER", false, .scalar none⟩ := ho hk'
      obtain ⟨type, isConstant, storage⟩ := cell
      obtain ⟨rfl, rfl, hform⟩ := Outline.mk.inj ho
      cases storage with
      | scalar w => exact ⟨w, hcell⟩
      | array store => cases hform
      | record fields => cases hform

theorem of_outline (hwf : frame.WellFormed) (h : frame'.outline = frame.outline) :
    Keeps [] frame frame' := by
  have hcell : ∀ k cell, frame.get? k = some cell →
      ∃ cell', frame'.get? k = some cell' ∧ cell'.outline = cell.outline := by
    intro k cell hk
    have hlookup := lookup_outline frame' k
    rw [h, lookup_outline, hk, Option.map_some] at hlookup
    exact Option.map_eq_some_iff.mp hlookup.symm
  refine ⟨?_, fun k cell hk hc => ?_, fun k cell hk hc => ?_, fun _ h => nomatch h⟩
  · have hkeys : ∀ f : Frame, f.keys = f.outline.map Prod.fst := fun f => by
      simp [Dict.keys, outline]
    have hsame : frame'.keys = frame.keys := by rw [hkeys, hkeys, h]
    exact hsame ▸ List.prefix_refl _
  · obtain ⟨cell', hk', ho⟩ := hcell k cell hk
    rwa [Cell.eq_of_outline_eq (hwf.cells _ (Dict.mem_of_get? hk)) hc ho] at hk'
  · obtain ⟨cell', hk', ho⟩ := hcell k cell hk
    exact ⟨cell', hk', (Cell.isConstant_of_outline_eq ho).trans hc, fun _ => ho⟩

theorem insert_new {k : String} (h : frame.contains k = false) (cell : Cell) :
    Keeps [] frame (frame.insert k cell) := by
  have hget : ∀ other c, frame.get? other = some c → (frame.insert k cell).get? other = some c := by
    intro other c hc
    have hne : other ≠ k := by
      rintro rfl
      rw [Dict.get?_of_not_contains h] at hc
      cases hc
    rw [Dict.get?_insert, if_neg hne, hc]
  exact {
    keys := frame.prefix_keys_insert k cell
    constants := fun other c hc _ => hget other c hc
    cells := fun other c hc hv => ⟨c, hget other c hc, hv, fun _ => rfl⟩
    counters := fun _ h => nomatch h }

theorem insert_counter {k : String}
    (h : ∀ cell, frame.get? k = some cell → cell.isConstant = false) (v : Value) :
    Keeps [k] frame (frame.insert k (.scalar "INTEGER" v)) where
  keys := frame.prefix_keys_insert k _
  constants other cell hcell hc := by
    have hne : other ≠ k := by
      rintro rfl
      rw [h cell hcell] at hc
      cases hc
    rw [Dict.get?_insert, if_neg hne, hcell]
  cells other cell hcell hc := by
    by_cases hk : other = k
    · exact ⟨_, by rw [Dict.get?_insert, if_pos hk], rfl, fun hn => absurd (by simp [hk]) hn⟩
    · exact ⟨cell, by rw [Dict.get?_insert, if_neg hk, hcell], hc, fun _ => rfl⟩
  counters other hk := by
    obtain rfl := List.mem_singleton.mp hk
    exact ⟨v, by rw [Dict.get?_insert, if_pos rfl]⟩

end Keeps

end Frame

namespace Environment

variable {env env' env'' : Environment} {n : Nat} {bound bound' : List String}

theorem length_levels (env : Environment) : env.levels.length = env.depth + 1 := by
  simp [levels, depth]

theorem levels_push (env : Environment) (frame : Frame) :
    (env.push frame).levels = env.levels ++ [frame] := by
  simp [levels, push]

theorem levels_pop (env : Environment) : env.pop.levels <+: env.levels := by
  obtain ⟨globals, frames, types, subroutines⟩ := env
  cases frames with
  | nil => exact List.prefix_refl _
  | cons top rest => simp [levels, pop]

theorem levels_setCurrent (env : Environment) : ∃ outer,
    env.levels = outer ++ [env.current] ∧ outer.length = env.depth ∧
      ∀ frame, (env.setCurrent frame).levels = outer ++ [frame] := by
  obtain ⟨globals, frames, types, subroutines⟩ := env
  cases frames with
  | nil => exact ⟨[], rfl, rfl, fun _ => rfl⟩
  | cons top rest =>
    exact ⟨globals :: rest.reverse, by simp [levels, current], by simp [depth], fun frame => by
      simp [levels, setCurrent]⟩

theorem FramesWellFormed.levels (h : env.FramesWellFormed) :
    ∀ frame ∈ env.levels, frame.WellFormed :=
  List.forall_mem_cons.mpr ⟨h.globals, fun frame hframe =>
    h.locals frame (List.mem_reverse.mp hframe)⟩

/-- At a level that both environments have, the frame is kept. -/
def KeepsLevel (n : Nat) (bound : List String) (env env' : Environment) : Prop :=
  ∀ frame, env.levels[n]? = some frame →
    ∃ frame', env'.levels[n]? = some frame' ∧ frame.Keeps bound frame'

namespace KeepsLevel

theorem of_getElem?_eq (h : env'.levels[n]? = env.levels[n]?) : KeepsLevel n [] env env' :=
  fun frame hframe => ⟨frame, h.trans hframe, .refl frame⟩

theorem refl (env : Environment) : KeepsLevel n [] env env := .of_getElem?_eq rfl

theorem trans (h : KeepsLevel n bound env env') (h' : KeepsLevel n bound' env' env'') :
    KeepsLevel n (bound ++ bound') env env'' := by
  intro frame hframe
  obtain ⟨frame', hframe', hk⟩ := h frame hframe
  obtain ⟨frame'', hframe'', hk'⟩ := h' frame' hframe'
  exact ⟨frame'', hframe'', hk.trans hk'⟩

theorem of_outlines (hwf : env.FramesWellFormed)
    (h : env'.levels.map Frame.outline = env.levels.map Frame.outline) :
    KeepsLevel n [] env env' := by
  intro frame hframe
  have hn := congrArg (·[n]?) h
  simp only [List.getElem?_map, hframe, Option.map_some] at hn
  obtain ⟨frame', hframe', ho⟩ := Option.map_eq_some_iff.mp hn
  exact ⟨frame', hframe', .of_outline (hwf.levels frame (List.mem_of_getElem? hframe)) ho⟩

theorem setCurrent {frame : Frame} (h : env.current.Keeps bound frame) (n : Nat) :
    KeepsLevel n (if n = env.depth then bound else []) env (env.setCurrent frame) := by
  obtain ⟨outer, hlevels, hlength, hset⟩ := env.levels_setCurrent
  -- the level of the innermost frame comes last, and the levels below it are left alone
  split
  · rename_i hn
    intro frame₀ hframe₀
    rw [hlevels, hn, ← hlength, List.getElem?_concat_length] at hframe₀
    obtain rfl := Option.some.inj hframe₀
    exact ⟨frame, by rw [hset, hn, ← hlength, List.getElem?_concat_length], h⟩
  · rename_i hn
    intro frame₀ hframe₀
    have hlt : n < outer.length := by
      have := (List.getElem?_eq_some_iff.mp hframe₀).1
      rw [length_levels] at this
      omega
    refine ⟨frame₀, ?_, .refl frame₀⟩
    rw [hlevels, List.getElem?_append_left hlt] at hframe₀
    rw [hset, List.getElem?_append_left hlt, hframe₀]

theorem setCurrent_of_keeps {frame : Frame} (h : env.current.Keeps [] frame) (n : Nat) :
    KeepsLevel n [] env (env.setCurrent frame) := by
  simpa using KeepsLevel.setCurrent h n

theorem push (env : Environment) (frame : Frame) : KeepsLevel n [] env (env.push frame) := by
  intro frame₀ hframe₀
  have hlt : n < env.levels.length := (List.getElem?_eq_some_iff.mp hframe₀).1
  exact ⟨frame₀, by rw [levels_push, List.getElem?_append_left hlt, hframe₀], .refl frame₀⟩

theorem pop (hn : n ≤ env.pop.depth) : KeepsLevel n [] env env.pop := by
  obtain ⟨inner, hinner⟩ := env.levels_pop
  have hlt : n < env.pop.levels.length := by
    rw [length_levels]
    omega
  exact .of_getElem?_eq (by rw [← hinner, List.getElem?_append_left hlt])

end KeepsLevel

/-- A write keeps every frame, whichever one it reaches. -/
theorem Write.keepsLevel (h : Write env env') (hwf : env.FramesWellFormed) (n : Nat) :
    KeepsLevel n [] env env' := by
  cases h with
  | bindNew name cell hn _ => exact .setCurrent_of_keeps (.insert_new hn cell) n
  | setScalar name v hl =>
    refine .of_outlines hwf (outlines_update fun cell hcell => ?_)
    cases hl.symm.trans hcell
    rfl
  | setField name field v hl hf =>
    refine .of_outlines hwf (outlines_update fun cell hcell => ?_)
    cases hl.symm.trans hcell
    exact Cell.outline_setField hf v
  | setElement name i v =>
    exact .of_outlines hwf (outlines_update fun cell _ => cell.outline_setElement i v)
  | setCounter name x hv =>
    obtain ⟨type, w, hw⟩ := hv
    have ho : Frame.outline (env.current.modify (key name) (.setScalar (.number x))) =
        env.current.outline := by
      refine Frame.outline_modify fun cell hcell => ?_
      cases hw.symm.trans hcell
      rfl
    exact .setCurrent_of_keeps (.of_outline hwf.current ho) n

theorem Written.framesWellFormed (h : Written env env') (hwf : env.FramesWellFormed) :
    env'.FramesWellFormed := by
  induction h with
  | refl => exact hwf
  | tail _ hw ih => exact hw.change.framesWellFormed ih

theorem Written.keepsLevel (h : Written env env') (hwf : env.FramesWellFormed) (n : Nat) :
    KeepsLevel n [] env env' := by
  induction h with
  | refl => exact .refl env
  | tail hw hlast ih =>
    exact ih.trans (hlast.keepsLevel (Written.framesWellFormed hw hwf) n)

theorem keepsLevel_of_bindCounter {name : String} {v : Value}
    (h : env.bindCounter name v = .ok env')
    (n : Nat) : KeepsLevel n (if n = env'.depth then [key name] else []) env env' := by
  rw [(change_of_bindCounter h).1.sameFixtures.depth]
  unfold bindCounter at h
  split at h
  · cases h
  · rename_i hc
    cases h
    refine .setCurrent (.insert_counter (fun cell hcell => ?_) v) n
    simpa [hcell] using hc

end Environment

end Chalkboard
