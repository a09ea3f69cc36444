import PipeExpr.Proofs.Sites
import PipeExpr.Proofs.Slices

/-!
# Optional access on what is absent

An optional access on null gives null and looks at no key: `index` asks about the target first.  `slice` reads
its parameters first, so these have to say what a slice takes (`Access.Slicing`).  A compiled access evaluates
its target, then its keys, and then does one of the two; so where the target gives null, `t?.name`, `t?[k]` and
`t?[a:b:c]` give null as soon as their keys have values (`Site.optional_absent`).

A name with a question mark in front is null where it is missing, if it is a context variable.  Names of pipe
locals do not get this far: their instruction has no flags, and a local that is not bound is an error.
-/

namespace PipeExpr

namespace Access

/-- Parameters that say what a slice takes: null or finite whole numbers, and a step that is not zero. -/
structure Slicing (start stop step : Value) : Prop where
  start : ∃ z, wholeNumber? start = some z
  stop : ∃ z, wholeNumber? stop = some z
  step : ∃ z, wholeNumber? step = some z ∧ z ≠ some 0

variable {flags : AccessFlags}

theorem index_null (key : Value) (h : flags.optional = true) : index .null key flags = .ok .null := if_pos h

theorem slice_null {start stop step : Value} (hs : Slicing start stop step) (h : flags.optional = true) :
    slice .null start stop step flags = .ok .null := by
  obtain ⟨a, ha⟩ := hs.start
  obtain ⟨b, hb⟩ := hs.stop
  obtain ⟨c, hc, hzero⟩ := hs.step
  exact slice_of_null (sliceStep_whole hc hzero) (sliceBound_whole .start ha) (sliceBound_whole .stop hb) h

end Access

namespace Site
variable {m : Site} {t : Expr}

/-- Whether a bound of a slice gives a value; an omitted one is null. -/
def GivesBound (m : Site) : Option Expr → Value → Prop
  | none, v => v = .null
  | some e, v => m.Gives e (.ok v)

theorem GivesBound.eval {bound : Option Expr} {v : Value} (h : m.GivesBound bound v)
    (hbound : ∀ e ∈ bound, e.Compiles) : Expr.evalBound m.setting bound = .ok v := by
  cases bound with
  | none => rw [show v = .null from h]; rfl
  | some e => exact Gives.eval h (hbound e rfl)

/-- What a reference in the question form gives: a context variable that is missing is null, and a local that
is missing fails. -/
def optionalName (m : Site) (name : String) : Except RunError Value :=
  if isLocalName name then
    match Machine.lookupLocal m.state name with
    | some v => .ok v
    | none => .error (.undefinedLocal name)
  else .ok ((m.context.get? name).getD .null)

section Absent
variable (h : m.Gives t (.ok .null))
include h

theorem Gives.member_absent (pos : Position) (property : Property) :
    m.Yields (.member pos t property true) (.ok .null) := by
  refine yields_of_eval rfl fun he => ?_
  obtain ⟨p, hp⟩ := he.program
  rw [Expr.eval, h.eval (Expr.compile_member hp)]
  show Access.index .null property.key ⟨true, false⟩ = _
  exact Access.index_null property.key rfl

theorem Gives.index_absent (pos : Position) {key : Expr} {k : Value} (hk : m.Gives key (.ok k)) :
    m.Yields (.index pos t key true) (.ok .null) := by
  refine yields_of_eval rfl fun he => ?_
  obtain ⟨p, hp⟩ := he.program
  obtain ⟨htarget, hkey⟩ := Expr.compile_index hp
  rw [Expr.eval, h.eval htarget, hk.eval hkey]
  show Access.index .null k ⟨true, false⟩ = _
  exact Access.index_null k rfl

theorem Gives.slice_absent (pos : Position) {start stop step : Option Expr} {a b c : Value}
    (ha : m.GivesBound start a) (hb : m.GivesBound stop b) (hc : m.GivesBound step c)
    (hs : Access.Slicing a b c) : m.Yields (.slice pos t start stop step true) (.ok .null) := by
  refine yields_of_eval rfl fun he => ?_
  obtain ⟨p, hp⟩ := he.program
  obtain ⟨htarget, hstart, hstop, hstep⟩ := Expr.compile_slice hp
  rw [Expr.eval, h.eval htarget, ha.eval hstart, hb.eval hstop, hc.eval hstep]
  exact Access.slice_null hs rfl

end Absent

theorem reference_absent (m : Site) (pos : Position) (name : String) :
    m.Yields (.reference pos name true) (m.optionalName name) := by
  refine yields_of_eval rfl fun _ => ?_
  unfold Expr.eval Setting.lookup optionalName
  by_cases hname : isLocalName name = true
  · simp only [if_pos hname]
    rfl
  · simp only [if_neg hname]
    cases hget : m.context.get? name <;> simp [setting, hget]

/-- **Optional access never fails for want of a target.**  On null, an access gives null under all flags with
the optional one, whatever its key is, and so does a slice whose parameters say what it takes.  So an access in
the question form gives null where its target does and its keys have values, unless the stack overflows.  A
name in the question form gives what it is bound to, or null if it is a context variable that is missing. -/
theorem optional_absent :
    (∀ (key : Value) (flags : AccessFlags), flags.optional = true → Access.index .null key flags = .ok .null) ∧
    (∀ (start stop step : Value) (flags : AccessFlags), flags.optional = true → Access.Slicing start stop step →
      Access.slice .null start stop step flags = .ok .null) ∧
    (∀ (m : Site) (t : Expr) (pos : Position), m.Gives t (.ok .null) →
      (∀ property, m.Yields (.member pos t property true) (.ok .null)) ∧
      (∀ key k, m.Gives key (.ok k) → m.Yields (.index pos t key true) (.ok .null)) ∧
      ∀ start stop step a b c, m.GivesBound start a → m.GivesBound stop b → m.GivesBound step c →
        Access.Slicing a b c → m.Yields (.slice pos t start stop step true) (.ok .null)) ∧
    ∀ (m : Site) (pos : Position) (name : String),
      m.Yields (.reference pos name true) (m.optionalName name) := by
  refine ⟨fun key flags h => Access.index_null key h, fun start stop step flags h hs => Access.slice_null hs h,
    fun m t pos h => ⟨h.member_absent pos, ?_, ?_⟩, reference_absent⟩
  · intro key k hk
    exact h.index_absent pos hk
  · intro start stop step a b c ha hb hc hs
    exact h.slice_absent pos ha hb hc hs

/-- On null, every key is as good as any other, and a slice may go backwards: `null?[true]` and
`null?[::-2]`. -/
theorem optional_absent_backwards :
    Access.index .null (.boolean true) ⟨true, true⟩ = .ok .null ∧
    Access.slice .null .null .null (.number (Float.ofBits 0xC000000000000000)) ⟨true, false⟩ = .ok .null ∧
    (∃ p, (Expr.index ⟨1, 1⟩ (.null ⟨1, 1⟩) (.boolean ⟨1, 7⟩ true) true).compile = .ok p ∧
      (start []).outcome p = .ok .null) ∧
    ∃ p, (Expr.slice ⟨1, 1⟩ (.null ⟨1, 1⟩) none none
        (some (.number ⟨1, 9⟩ (Float.ofBits 0xC000000000000000))) true).compile = .ok p ∧
      (start []).outcome p = .ok .null := by
  have hstep : Access.wholeNumber? (.number (Float.ofBits 0xC000000000000000)) = some (some (-2)) := rfl
  have hs : Access.Slicing .null .null (.number (Float.ofBits 0xC000000000000000)) :=
    ⟨⟨_, rfl⟩, ⟨_, rfl⟩, _, hstep, by decide⟩
  have htarget : (start []).Gives (.null ⟨1, 1⟩) (.ok .null) := (gives_iff ⟨rfl, _, rfl⟩ _).mpr rfl
  have hkey : (start []).Gives (.boolean ⟨1, 7⟩ true) (.ok (.boolean true)) :=
    (gives_iff ⟨rfl, _, rfl⟩ _).mpr rfl
  have hbound : (start []).GivesBound (some (.number ⟨1, 9⟩ (Float.ofBits 0xC000000000000000)))
      (.number (Float.ofBits 0xC000000000000000)) := (gives_iff ⟨rfl, _, rfl⟩ _).mpr rfl
  obtain ⟨hindex, hslice, hsite, -⟩ := optional_absent
  obtain ⟨-, hindexed, hsliced⟩ := hsite (start []) (.null ⟨1, 1⟩) ⟨1, 1⟩ htarget
  refine ⟨hindex _ _ rfl, hslice _ _ _ _ rfl hs, ⟨_, rfl, ?_⟩, _, rfl, ?_⟩
  · exact (hindexed _ _ hkey _ rfl).resolve_right fun hover => hover.1 (by decide)
  · exact (hsliced none none _ _ _ _ rfl rfl hbound hs _ rfl).resolve_right fun hover => hover.1 (by decide)

end Site

set_option maxRecDepth 2000 in
/-- What fails in the question form: the name of a pipe local that is not bound, and a slice whose step is
zero. -/
theorem evaluate_absent :
    evaluate "?.$x" [] = .error (.run (.undefinedLocal "$x")) ∧
      evaluate "null?[::0]" [] = .error (.run (.invalidSlice .zeroStep)) := by
  have hname : parse "?.$x" {} = .ok (.reference ⟨1, 1⟩ "$x" true) := by rfl
  have hslice : parse "null?[::0]" {} = .ok (.slice ⟨1, 1⟩ (.null ⟨1, 1⟩) none none
      (some (.number ⟨1, 9⟩ (Numeral.toDouble ⟨['0'], [], 0⟩))) true) := by rfl
  constructor
  · exact Site.evaluate_eq_eval hname rfl rfl (by decide)
  · exact Site.evaluate_eq_eval hslice rfl rfl (by decide)

end PipeExpr
