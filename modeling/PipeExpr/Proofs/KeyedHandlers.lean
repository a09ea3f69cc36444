import Mathlib
import PipeExpr.Library.Standard
import PipeExpr.Proofs.ArrayHandlers
import PipeExpr.Proofs.Equality

/-!
# Handlers by key

Three handlers take the value of the block for an element as a key: `sort`, `unique` and `groupBy`.  All
keys are there before the handler does anything with them, so it makes no difference to it what the
evaluations do to the machine in between; all that is said of them is that they have values, one after the
other (`Evaluates`).

An element may stand in an array more than once, so what is moved, kept and grouped are occurrences: an
element with its key and its position.  **`sort` brings them into the order of the keys, and of the positions
where the keys are not told apart** (`sort_stable`).  `unique` keeps those with no like one in front of them
(`leading`), although it compares with the keys that it has kept and not with all in front: as equality is
transitive, this comes to the same (`keepNew_leading`).  `groupBy` has a group for each text of a key, and in
it all elements with this text so far (`foldl_addToGroup`).
-/

namespace PipeExpr

open Machine PipeProgram

/-! ## Keys -/

/-- The evaluations of a block for the elements of an array, of which the first one has the index `start`,
have values, one after the other, and lead the machine from one state to another. -/
inductive Evaluates (run : Machine Value) : State → Nat → List Value → List Value → State → Prop where
  | nil {s : State} {start : Nat} : Evaluates run s start [] [] s
  | cons {s s' s'' : State} {start : Nat} {item v : Value} {items values : List Value}
    (hitem : inScope (itemBindings item start) run s = (.ok v, s'))
    (hrest : Evaluates run s' (start + 1) items values s'') :
    Evaluates run s start (item :: items) (v :: values) s''

section Answers
variable {run : Machine Value} {s s' s'' : State} {start : Nat} {items values : List Value}

theorem Evaluates.length_eq (h : Evaluates run s start items values s') : items.length = values.length := by
  induction h with
  | nil => rfl
  | cons _ _ ih => rw [List.length_cons, List.length_cons, ih]

theorem answer_evalThen_ok {bindings : Fields Value} {v : Value} (h : inScope bindings run s = (.ok v, s'))
    (next : Value → PipeProgram) : answer run (evalThen bindings next) s = answer run (next v) s' := by
  rw [evalThen, answer]
  simp only [h]

theorem answer_evalThen_error {bindings : Fields Value} {halt : Halt}
    (h : inScope bindings run s = (.error halt, s')) (next : Value → PipeProgram) :
    answer run (evalThen bindings next) s = (.error halt, s') := by
  rw [evalThen, answer]
  cases halt with
  | error e =>
    simp only [h]
    rfl
  | outOfFuel => simp only [h]

/-- A handler that needs all values goes on behind the elements that have some. -/
theorem Evaluates.answer_go (h : Evaluates run s start items values s') (next : List Value → PipeProgram)
    (back seen : List Value) : answer run (evalAll.go next (items ++ back) start seen) s =
      answer run (evalAll.go next back (start + items.length) (values.reverse ++ seen)) s' := by
  induction h generalizing seen with
  | nil => rfl
  | @cons s s' s'' start item v items values hitem _ ih =>
    have hgo : answer run (evalAll.go next (item :: items ++ back) start seen) s =
        answer run (evalAll.go next (items ++ back) (start + 1) (v :: seen)) s' := answer_evalThen_ok hitem _
    rw [hgo, ih, List.length_cons, List.reverse_cons, List.append_assoc, Nat.add_assoc, Nat.add_comm 1]
    rfl

/-- A handler that needs all values has them. -/
theorem Evaluates.answer_evalAll (h : Evaluates run s 0 items values s') (next : List Value → PipeProgram) :
    answer run (evalAll items next) s = answer run (next values) s' := by
  have hgo := h.answer_go next [] []
  rwa [List.append_nil, List.append_nil, evalAll.go, List.reverse_reverse] at hgo

/-- A handler that needs all values fails with the first element that fails. -/
theorem Evaluates.answer_failure (h : Evaluates run s 0 items values s') {item : Value} {halt : Halt}
    (hitem : inScope (itemBindings item items.length) run s' = (.error halt, s'')) (back : List Value)
    (next : List Value → PipeProgram) :
    answer run (evalAll (items ++ item :: back) next) s = (.error halt, s'') := by
  refine (h.answer_go next (item :: back) []).trans ?_
  rw [Nat.zero_add, evalAll.go]
  exact answer_evalThen_error hitem _

end Answers

/-- A chain whose block takes the entry `k` of an element. -/
def byKey : Expr :=
  .pipe ⟨1, 1⟩ [⟨sourceStage, none, ⟨1, 1⟩, .null ⟨1, 1⟩⟩,
    ⟨"sort", none, ⟨1, 6⟩, .member ⟨1, 18⟩ (.reference ⟨1, 13⟩ "$item" false) (.name "k") false⟩]

/-- An element with a key and something else. -/
def row (x : Value × Value) : Value := .object [("k", x.1), ("n", x.2)]

/-- The block of the chain has the key of a row as its value, and fails for null. -/
theorem byKey_evaluates : ∃ p code, byKey.compile = .ok p ∧ code ∈ p.blocks ∧
    let run := execute ⟨.standard, 4, p, []⟩ 64 code
    (∀ (rows : List (Value × Value)) (start : Nat),
      Evaluates run .initial start (rows.map row) (rows.map Prod.fst) .initial) ∧
    ∀ index, inScope (itemBindings .null index) run .initial =
      (.error (.error (.nullAccess "'k'")), .initial) := by
  have hc : byKey.compile = .ok _ := rfl
  refine ⟨_, _, hc, Array.mem_of_getElem? (i := 0) rfl, ?_⟩
  obtain ⟨block, hblock⟩ := @Expr.exists_block _ _ hc _ (Array.mem_of_getElem? (i := 0) rfl)
    ⟨.standard, 4, _, []⟩ rfl 64 (by decide) .initial
  have houtcome : ∀ {item : Value} {index : Nat} {r : Except RunError Value},
      (execute ⟨.standard, 4, _, []⟩ 64 _ ⟨#[], [[("$item", item), ("$index", .ofNat index)]], []⟩).1 =
        r.mapError .error → block (itemBindings item index) = r := fun {item index r} hr => by
    have hrun := (Prod.mk.inj (hblock (itemBindings item index))).1
    rw [ofList_itemBindings] at hrun
    exact mapError_inj (hrun.symm.trans hr)
  have hvalue : ∀ (x : Value × Value) (index : Nat), block (itemBindings (row x) index) = .ok x.1 :=
    fun _ _ => houtcome rfl
  have hfails : ∀ (index : Nat), block (itemBindings .null index) = .error (.nullAccess "'k'") :=
    fun _ => houtcome rfl
  refine ⟨fun rows start => ?_, fun index => ?_⟩
  · induction rows generalizing start with
    | nil => exact .nil
    | cons x rows ih =>
      refine .cons ?_ (ih (start + 1))
      rw [hblock, hvalue]
      rfl
  · rw [hblock, hfails]
    rfl

/-! ## Occurrences -/

/-- An element of an array, with its key and its position. -/
structure Occurrence where
  item : Value
  key : Value
  position : Nat

/-- The elements of an array, each with its key and its position. -/
def occurrences (items keys : List Value) : List Occurrence :=
  (items.zip keys).zipIdx.map fun x => ⟨x.1.1, x.1.2, x.2⟩

/-- The occurrences with a key that is the same as none in front of it. -/
def leading (same : Value → Value → Bool) (items keys : List Value) : List Occurrence :=
  (occurrences items keys).filter fun x => !(keys.take x.position).any (same · x.key)

section Occurrences
variable {items keys : List Value} {x y : Occurrence} {same : Value → Value → Bool}

theorem mem_occurrences : x ∈ occurrences items keys ↔
    items[x.position]? = some x.item ∧ keys[x.position]? = some x.key := by
  rw [occurrences, List.mem_map]
  constructor
  · rintro ⟨z, hz, rfl⟩
    exact List.getElem?_zip_eq_some.mp (List.mem_zipIdx_iff_getElem?.mp hz)
  · intro h
    exact ⟨((x.item, x.key), x.position),
      List.mem_zipIdx_iff_getElem?.mpr (List.getElem?_zip_eq_some.mpr h), rfl⟩

theorem occurrences_map_item (h : items.length = keys.length) :
    (occurrences items keys).map (·.item) = items := by
  have hitems : (occurrences items keys).map (·.item) = ((items.zip keys).zipIdx.map Prod.fst).map Prod.fst := by
    rw [occurrences, List.map_map, List.map_map]
    rfl
  rw [hitems, List.zipIdx_map_fst, List.map_fst_zip h.le]

theorem occurrences_map_key (h : items.length = keys.length) : (occurrences items keys).map (·.key) = keys := by
  have hkeys : (occurrences items keys).map (·.key) = ((items.zip keys).zipIdx.map Prod.fst).map Prod.snd := by
    rw [occurrences, List.map_map, List.map_map]
    rfl
  rw [hkeys, List.zipIdx_map_fst, List.map_snd_zip h.ge]

theorem occurrences_ascending (items keys : List Value) :
    (occurrences items keys).Pairwise fun x y => x.position < y.position := by
  have hpositions : ((items.zip keys).zipIdx.map Prod.snd).Pairwise (· < ·) := by
    rw [List.zipIdx_map_snd]
    exact List.pairwise_lt_range' 1
  rw [occurrences, List.pairwise_map]
  exact List.pairwise_map.mp hpositions

theorem occurrences_append (h : items.length = keys.length) (item key : Value) :
    occurrences (items ++ [item]) (keys ++ [key]) = occurrences items keys ++ [⟨item, key, items.length⟩] := by
  have hlength : (items.zip keys).length = items.length := by rw [List.length_zip, h, Nat.min_self]
  unfold occurrences
  rw [List.zip_append h, List.zipIdx_append, List.map_append, hlength, Nat.zero_add]
  rfl

theorem key_mem (hx : x ∈ occurrences items keys) : x.key ∈ keys := List.mem_of_getElem? (mem_occurrences.1 hx).2

/-- The key of an occurrence stands in front of the position of a later one. -/
theorem key_mem_take (hx : x ∈ occurrences items keys) {n : Nat} (hn : x.position < n) :
    x.key ∈ keys.take n := by
  have hkey := (mem_occurrences.1 hx).2
  refine List.mem_of_getElem? (i := x.position) ?_
  rw [List.getElem?_take, if_pos hn, hkey]

/-- **No occurrence in front of a leading one has the same key.** -/
theorem mem_leading_iff (hx : x ∈ occurrences items keys) (hlength : items.length = keys.length) :
    x ∈ leading same items keys ↔
      ∀ y ∈ occurrences items keys, y.position < x.position → same y.key x.key = false := by
  rw [leading, List.mem_filter, Bool.not_eq_true', List.any_eq_false]
  constructor
  · rintro ⟨_, h⟩ y hy hlt
    exact Bool.eq_false_of_not_eq_true (h y.key (key_mem_take hy hlt))
  · intro h
    refine ⟨hx, fun k hk => ?_⟩
    obtain ⟨j, hj, rfl⟩ := List.mem_take_iff_getElem.mp hk
    have hlt : j < x.position := (Nat.lt_min.mp hj).1
    have hkeys : j < keys.length := (Nat.lt_min.mp hj).2
    have hitems : j < items.length := hlength ▸ hkeys
    have hy : (⟨items[j], keys[j], j⟩ : Occurrence) ∈ occurrences items keys :=
      mem_occurrences.2 ⟨List.getElem?_eq_getElem hitems, List.getElem?_eq_getElem hkeys⟩
    rw [Bool.not_eq_true]
    exact h _ hy hlt

/-- An occurrence is leading, or there is a leading one with the same key in front of it. -/
theorem exists_leading (same : Value → Value → Bool)
    (hsame : ∀ k k' k'', same k k' = true → same k' k'' = true → same k k'' = true)
    (hlength : items.length = keys.length) (hx : x ∈ occurrences items keys) :
    x ∈ leading same items keys ∨
      ∃ y ∈ leading same items keys, y.position < x.position ∧ same y.key x.key = true := by
  induction hn : x.position using Nat.strong_induction_on generalizing x with
  | _ n ih =>
    subst hn
    by_cases h : x ∈ leading same items keys
    · exact .inl h
    · rw [mem_leading_iff hx hlength] at h
      push Not at h
      obtain ⟨y, hy, hlt, hyx⟩ := h
      rw [Bool.ne_false_iff] at hyx
      right
      rcases ih y.position hlt hy rfl with hleads | ⟨z, hz, hzlt, hzy⟩
      · exact ⟨y, hleads, hlt, hyx⟩
      · exact ⟨z, hz, hzlt.trans hlt, hsame _ _ _ hzy hyx⟩

/-- No two leading occurrences have the same key. -/
theorem leading_apart (same : Value → Value → Bool) (items keys : List Value) :
    (leading same items keys).Pairwise fun x y => same x.key y.key = false := by
  have hpositions := (occurrences_ascending items keys).filter fun x =>
    !(keys.take x.position).any (same · x.key)
  refine hpositions.imp_of_mem fun {x y} hx hy hlt => ?_
  obtain ⟨hx, _⟩ := List.mem_filter.mp hx
  obtain ⟨_, hy⟩ := List.mem_filter.mp hy
  rw [Bool.not_eq_true', List.any_eq_false] at hy
  exact Bool.eq_false_of_not_eq_true (hy x.key (key_mem_take hx hlt))

/-- One more element is leading unless there is the same key in front of it. -/
theorem leading_append (h : items.length = keys.length) (item key : Value) :
    leading same (items ++ [item]) (keys ++ [key]) = leading same items keys ++
      if keys.any (same · key) then [] else [⟨item, key, items.length⟩] := by
  have hfront : ∀ x ∈ occurrences items keys, (!((keys ++ [key]).take x.position).any (same · x.key)) =
      !(keys.take x.position).any (same · x.key) := by
    intro x hx
    have hlt : x.position < keys.length := (List.getElem?_eq_some_iff.mp (mem_occurrences.1 hx).2).1
    rw [List.take_append_of_le_length hlt.le]
  rw [leading, occurrences_append h, List.filter_append, List.filter_congr hfront, ← leading]
  congr 1
  rw [List.filter_singleton, h, List.take_left]
  cases keys.any (same · key) <;> rfl

/-- A key is the same as one in front of it if it is the same as a leading one. -/
theorem any_leading (same : Value → Value → Bool)
    (hsame : ∀ k k' k'', same k k' = true → same k' k'' = true → same k k'' = true)
    (hlength : items.length = keys.length) (key : Value) :
    ((leading same items keys).map (·.key)).any (same · key) = keys.any (same · key) := by
  rw [Bool.eq_iff_iff, List.any_map, List.any_eq_true, List.any_eq_true]
  constructor
  · rintro ⟨x, hx, hkey⟩
    exact ⟨x.key, key_mem (List.mem_filter.mp hx).1, hkey⟩
  · rintro ⟨k, hk, hkey⟩
    rw [← occurrences_map_key hlength] at hk
    obtain ⟨x, hx, rfl⟩ := List.mem_map.mp hk
    rcases exists_leading same hsame hlength hx with hleads | ⟨y, hy, _, hyx⟩
    · exact ⟨x, hleads, hkey⟩
    · exact ⟨y, hy, hsame _ _ _ hyx hkey⟩

end Occurrences

/-! ## Sorting -/

/-- Whether elements are in the order of their keys, and in their own order where the keys are not told apart. -/
def StablySorted (items keys output : List Value) : Prop :=
  ∃ order : List Occurrence, order.Perm (occurrences items keys) ∧ order.map (·.item) = output ∧
    order.Pairwise fun x y => SortKey.compare x.key y.key = .lt ∨
      SortKey.compare x.key y.key = .eq ∧ x.position < y.position

namespace SortKey

theorem le_iff {v w : Value} : le v w = true ↔ (compare v w).isLE = true := by
  unfold le
  cases compare v w <;> decide

theorem le_trans (u v w : Value) (huv : le u v = true) (hvw : le v w = true) : le u w = true := by
  rw [le_iff] at huv hvw ⊢
  exact Std.TransCmp.isLE_trans huv hvw

theorem le_total (v w : Value) : (le v w || le w v) = true := by
  have hswap : compare w v = (compare v w).swap := Std.OrientedCmp.eq_swap
  unfold le
  rw [hswap]
  cases compare v w <;> rfl

/-- What the sort says of two positions: the keys are in order, and if they are not told apart the positions
are. -/
theorem zipIdxLE_cases {a b : (Value × Value) × Nat}
    (h : List.zipIdxLE (fun x y => le x.2 y.2) a b = true) (hne : a.2 ≠ b.2) :
    compare a.1.2 b.1.2 = .lt ∨ compare a.1.2 b.1.2 = .eq ∧ a.2 < b.2 := by
  have hswap : compare b.1.2 a.1.2 = (compare a.1.2 b.1.2).swap := Std.OrientedCmp.eq_swap
  cases hcompare : compare a.1.2 b.1.2 with
  | lt => exact .inl rfl
  | eq =>
    simp only [List.zipIdxLE, le, hswap, hcompare] at h
    exact .inr ⟨rfl, lt_of_le_of_ne (of_decide_eq_true h) hne⟩
  | gt =>
    simp only [List.zipIdxLE, le, hcompare] at h
    cases h

end SortKey

/-- **Sorting by keys is stable.** -/
theorem mergeSort_stablySorted (items keys : List Value) : StablySorted items keys
    (((items.zip keys).mergeSort fun a b => SortKey.le a.2 b.2).map Prod.fst) := by
  have hsorted := List.pairwise_mergeSort
    (List.zipIdxLE_trans fun a b c : Value × Value => SortKey.le_trans a.2 b.2 c.2)
    (List.zipIdxLE_total fun a b : Value × Value => SortKey.le_total a.2 b.2) (items.zip keys).zipIdx
  have hperm := List.mergeSort_perm (items.zip keys).zipIdx
    (List.zipIdxLE fun a b : Value × Value => SortKey.le a.2 b.2)
  have hitems := @List.mergeSort_zipIdx _ (fun a b : Value × Value => SortKey.le a.2 b.2) (items.zip keys)
  generalize (items.zip keys).zipIdx.mergeSort _ = row at hsorted hperm hitems
  have hpositions : row.Pairwise fun a b => a.2 ≠ b.2 := by
    have hnodup : ((items.zip keys).zipIdx.map Prod.snd).Nodup := by
      rw [List.zipIdx_map_snd]
      exact List.nodup_range'
    exact List.pairwise_map.mp ((hperm.map Prod.snd).nodup_iff.mpr hnodup)
  refine ⟨row.map fun x => ⟨x.1.1, x.1.2, x.2⟩, hperm.map _, ?_, ?_⟩
  · rw [← hitems, List.map_map, List.map_map]
    rfl
  · exact List.pairwise_map.mpr (hsorted.imp₂ (fun _ _ => SortKey.zipIdxLE_cases) hpositions)

namespace PipeHandler

/-- **The order of sort keys is a total preorder that puts a key in front of another one exactly if it is
before it, and `sort` is a stable sort by it.**  It fails as the first element that fails does. -/
theorem sort_stable :
    (∀ u v w, SortKey.compare v v = .eq ∧ SortKey.compare w v = (SortKey.compare v w).swap ∧
      ((SortKey.compare u v).isLE → (SortKey.compare v w).isLE → (SortKey.compare u w).isLE)) ∧
    (∀ v w, SortKey.compare v w = .lt ↔ SortKey.Before v w) ∧
    Library.standard.handlers.get? "sort" = Option.some sort ∧
    ∀ {run : Machine Value} {s s' : State} {items keys : List Value} (name : String),
      Evaluates run s 0 items keys s' →
      (∃ output, answer run (sort name (.array items)) s = (.ok (.array output), s') ∧ output.Perm items ∧
        StablySorted items keys output) ∧
      ∀ {item : Value} {halt : Halt} {s'' : State} (back : List Value),
        inScope (itemBindings item items.length) run s' = (.error halt, s'') →
        answer run (sort name (.array (items ++ item :: back))) s = (.error halt, s'') := by
  refine ⟨fun u v w => ⟨Std.ReflCmp.compare_self, Std.OrientedCmp.eq_swap, Std.TransCmp.isLE_trans⟩,
    SortKey.compare_eq_lt_iff, rfl, ?_⟩
  intro run s s' items keys name h
  have hstable := mergeSort_stablySorted items keys
  constructor
  · refine ⟨_, h.answer_evalAll _, ?_, hstable⟩
    obtain ⟨order, hperm, houtput, _⟩ := hstable
    rw [← houtput, ← occurrences_map_item h.length_eq]
    exact hperm.map _
  · intro item halt s'' back hitem
    exact h.answer_failure hitem back _

/-- Rows with keys of several families are sorted, and one that has no key makes the whole fail. -/
theorem byKey_sorts : ∃ p code, byKey.compile = .ok p ∧ code ∈ p.blocks ∧ ∀ name,
    let run := execute ⟨.standard, 4, p, []⟩ 64 code
    let keys := [.string "b", .null, .string "a", .boolean true, .string "b"]
    let items := (keys.zip [.string "1", .string "2", .string "3", .string "4", .string "5"]).map row
    (∃ output, answer run (sort name (.array items)) .initial = (.ok (.array output), .initial) ∧
      output.Perm items ∧ StablySorted items keys output) ∧
    answer run (sort name (.array (items ++ .null :: items))) .initial =
      (.error (.error (.nullAccess "'k'")), .initial) := by
  obtain ⟨p, code, hc, hcode, hvalues, hfails⟩ := byKey_evaluates
  refine ⟨p, code, hc, hcode, fun name => ?_⟩
  obtain ⟨hsorted, hfailure⟩ := sort_stable.2.2.2 name (hvalues ([.string "b", .null, .string "a",
    .boolean true, .string "b"].zip [.string "1", .string "2", .string "3", .string "4", .string "5"]) 0)
  exact ⟨hsorted, hfailure _ (hfails _)⟩

end PipeHandler

/-! ## The first of each key -/

namespace PipeHandler

theorem keepNew_leading {front frontKeys items keys : List Value} (hfront : front.length = frontKeys.length)
    (hlength : items.length = keys.length) :
    keepNew (items.zip keys) ((leading Value.equal front frontKeys).map (·.key)).reverse
        ((leading Value.equal front frontKeys).map (·.item)).reverse =
      (leading Value.equal (front ++ items) (frontKeys ++ keys)).map (·.item) := by
  induction items generalizing front frontKeys keys with
  | nil =>
    obtain rfl := List.length_eq_zero_iff.mp hlength.symm
    rw [List.zip_nil_left, keepNew, List.reverse_reverse, List.append_nil, List.append_nil]
  | cons item items ih =>
    obtain _ | ⟨key, keys⟩ := keys
    · cases hlength
    have hfront' : (front ++ [item]).length = (frontKeys ++ [key]).length := by
      rw [List.length_append, List.length_append, hfront]
      rfl
    have hnext := ih hfront' (Nat.succ_inj.mp hlength)
    have hany := any_leading Value.equal (fun _ _ _ => Value.equal_trans) hfront key
    rw [leading_append hfront, List.append_assoc, List.append_assoc] at hnext
    rw [List.zip_cons_cons, keepNew, List.any_reverse, hany]
    by_cases hseen : frontKeys.any (Value.equal · key) = true
    · rw [if_pos hseen, List.append_nil] at hnext
      rw [if_pos hseen]
      exact hnext
    · rw [if_neg hseen, List.map_append, List.map_append, List.reverse_append, List.reverse_append] at hnext
      rw [if_neg hseen]
      exact hnext

/-- **`unique` keeps the elements with a key that no element in front has.**  No two that are kept have equal
keys, and in front of one that is not there is one that is, with an equal key.  The order in which the entries
of an object stand makes no difference to it, and NaN equals nothing. -/
theorem unique_first :
    Library.standard.handlers.get? "unique" = Option.some unique ∧
    (∀ {fs gs : Fields Value}, (fs.map Prod.fst).Nodup → fs.Perm gs → ∀ v,
      Value.equal (.object fs) v = Value.equal (.object gs) v ∧
      Value.equal v (.object fs) = Value.equal v (.object gs)) ∧
    (∀ {x : Float}, x.isNaN = true → ∀ v,
      Value.equal (.number x) v = false ∧ Value.equal v (.number x) = false) ∧
    ∀ {run : Machine Value} {s s' : State} {items keys : List Value} (name : String),
      Evaluates run s 0 items keys s' → ∃ kept : List Occurrence,
        answer run (unique name (.array items)) s = (.ok (.array (kept.map (·.item))), s') ∧
        kept.Sublist (occurrences items keys) ∧
        (∀ x ∈ occurrences items keys, x ∈ kept ↔
          ∀ y ∈ occurrences items keys, y.position < x.position → y.key.equal x.key = false) ∧
        (kept.Pairwise fun x y => x.key.equal y.key = false ∧
          ((∀ k ∈ keys, k.WellFormed) → y.key.equal x.key = false)) ∧
        ∀ x ∈ occurrences items keys, x ∉ kept →
          ∃ y ∈ kept, y.position < x.position ∧ y.key.equal x.key = true := by
  refine ⟨rfl, Value.equal_perm, Value.equal_of_isNaN, ?_⟩
  intro run s s' items keys name h
  have hlength := h.length_eq
  refine ⟨leading Value.equal items keys, ?_, List.filter_sublist, fun x hx => mem_leading_iff hx hlength, ?_, ?_⟩
  · have hkept := @keepNew_leading [] [] _ _ rfl hlength
    rw [List.nil_append, List.nil_append] at hkept
    rw [← hkept]
    exact h.answer_evalAll _
  · refine (leading_apart Value.equal items keys).imp_of_mem fun {x y} _ hy hxy => ⟨hxy, fun hkeys => ?_⟩
    have hkey : y.key ∈ keys := key_mem (List.mem_filter.mp hy).1
    refine Bool.eq_false_of_not_eq_true fun hyx => ?_
    rw [Value.equal_symm (hkeys _ hkey) hyx] at hxy
    cases hxy
  · intro x hx hdropped
    rcases exists_leading Value.equal (fun _ _ _ => Value.equal_trans) hlength hx with hleads | hfront
    · exact absurd hleads hdropped
    · exact hfront

/-- Of rows with equal keys the first one is kept, also where the entries of the keys are not in the same
order. -/
theorem byKey_firsts : ∃ p code, byKey.compile = .ok p ∧ code ∈ p.blocks ∧ ∀ name,
    let run := execute ⟨.standard, 4, p, []⟩ 64 code
    let key := .object [("x", .null), ("y", .boolean true)]
    let key' := .object [("y", .boolean true), ("x", .null)]
    let first := row (key, .string "1")
    let second := row (.null, .string "2")
    let third := row (key', .string "3")
    ∃ kept : List Occurrence, answer run (unique name (.array [first, second, third])) .initial =
      (.ok (.array (kept.map (·.item))), .initial) ∧ ⟨first, key, 0⟩ ∈ kept ∧ ⟨third, key', 2⟩ ∉ kept := by
  obtain ⟨p, code, hc, hcode, hvalues, _⟩ := byKey_evaluates
  refine ⟨p, code, hc, hcode, fun name => ?_⟩
  intro run key key' first second third
  obtain ⟨kept, hanswer, _, hkept, _⟩ := unique_first.2.2.2 name
    (hvalues [(key, .string "1"), (.null, .string "2"), (key', .string "3")] 0)
  have hfirst : ⟨first, key, 0⟩ ∈ occurrences [first, second, third] [key, .null, key'] :=
    mem_occurrences.2 ⟨rfl, rfl⟩
  have hthird : ⟨third, key', 2⟩ ∈ occurrences [first, second, third] [key, .null, key'] :=
    mem_occurrences.2 ⟨rfl, rfl⟩
  have hequal : Value.equal key key' = true := by
    simp [key, key', Value.equal, Value.equalFields, Fields.get?]
  refine ⟨kept, hanswer, (hkept _ hfirst).mpr fun y _ hy => absurd hy (Nat.not_lt_zero _), fun hmem => ?_⟩
  have hdiffer := (hkept _ hthird).mp hmem _ hfirst (by decide)
  rw [hequal] at hdiffer
  cases hdiffer

end PipeHandler

/-! ## Groups -/

/-- The texts of keys, each once, in the order in which they come up. -/
def keyTexts (keys : List Value) : List String := (keys.map Value.asText).eraseDups

/-- The occurrences with a key of a given text. -/
def members (items keys : List Value) (text : String) : List Occurrence :=
  (occurrences items keys).filter (·.key.asText == text)

theorem nodup_eraseDups {α : Type} [BEq α] [LawfulBEq α] (l : List α) : l.eraseDups.Nodup := by
  induction hn : l.length using Nat.strong_induction_on generalizing l with
  | _ n ih =>
    cases l with
    | nil =>
      rw [List.eraseDups_nil]
      exact List.nodup_nil
    | cons a l =>
      have hlt : (l.filter fun b => !b == a).length < n := hn ▸ Nat.lt_succ_of_le (List.length_filter_le _ _)
      rw [List.eraseDups_cons, List.nodup_cons, List.mem_eraseDups]
      refine ⟨fun ha => ?_, ih _ hlt _ rfl⟩
      simp at ha

theorem eraseDups_concat {α : Type} [BEq α] [LawfulBEq α] [DecidableEq α] (l : List α) (a : α) :
    (l ++ [a]).eraseDups = if a ∈ l then l.eraseDups else l.eraseDups ++ [a] := by
  rw [List.eraseDups_append]
  by_cases ha : a ∈ l
  · simp [List.removeAll, ha]
  · simp [List.removeAll, ha, List.eraseDups_cons]

section Groups
variable {items keys : List Value} {x : Occurrence} {text : String}

theorem mem_members : x ∈ members items keys text ↔ x ∈ occurrences items keys ∧ x.key.asText = text := by
  rw [members, List.mem_filter, beq_iff_eq]

theorem mem_keyTexts_of_mem (hx : x ∈ occurrences items keys) : x.key.asText ∈ keyTexts keys := by
  rw [keyTexts, List.mem_eraseDups]
  exact List.mem_map_of_mem (key_mem hx)

theorem exists_member (h : items.length = keys.length) (htext : text ∈ keyTexts keys) :
    ∃ x, x ∈ members items keys text := by
  rw [keyTexts, List.mem_eraseDups, ← occurrences_map_key h, List.map_map] at htext
  obtain ⟨x, hx, rfl⟩ := List.mem_map.mp htext
  exact ⟨x, mem_members.2 ⟨hx, rfl⟩⟩

/-- The groups hold every occurrence once. -/
theorem flatMap_members_perm (items keys : List Value) :
    ((keyTexts keys).flatMap (members items keys)).Perm (occurrences items keys) := by
  have hnodup : (occurrences items keys).Nodup :=
    (occurrences_ascending items keys).imp fun {x y} hlt hxy => (hxy ▸ hlt).false
  refine (List.perm_ext_iff_of_nodup ?_ hnodup).mpr fun x => ?_
  · refine List.nodup_flatMap.mpr ⟨fun text _ => hnodup.filter _, ?_⟩
    refine (nodup_eraseDups _).imp fun {text text'} hne x hx hx' => hne ?_
    rw [← (mem_members.1 hx).2, (mem_members.1 hx').2]
  · rw [List.mem_flatMap]
    constructor
    · rintro ⟨text, _, hx⟩
      exact (mem_members.1 hx).1
    · intro hx
      exact ⟨_, mem_keyTexts_of_mem hx, mem_members.2 ⟨hx, rfl⟩⟩

/-- The members of a group by the texts of the keys alone. -/
theorem members_map_item (items keys : List Value) (text : String) : (members items keys text).map (·.item) =
    ((items.zip (keys.map Value.asText)).filter (·.2 == text)).map Prod.fst := by
  have hentries : (items.zip keys).zipIdx.map Prod.fst = items.zip keys := List.zipIdx_map_fst ..
  conv_rhs => rw [List.zip_map_right, ← hentries, List.map_map, List.filter_map, List.map_map]
  rw [members, occurrences, List.filter_map, List.map_map]
  rfl

end Groups

namespace PipeHandler

/-- Adding an element to groups of their own names: the group of the name grows, and it comes to the end if
there was none. -/
theorem addToGroup_map {names : List String} (hnodup : names.Nodup) (group : String → List Value)
    {name : String} (hname : name ∉ names → group name = []) (item : Value) :
    addToGroup (names.map fun n => (n, group n)) name item = (if name ∈ names then names else names ++ [name]).map
      fun n => (n, if name = n then item :: group n else group n) := by
  induction names with
  | nil => simp [addToGroup, hname]
  | cons n names ih =>
    obtain ⟨hn, hrest⟩ := List.nodup_cons.mp hnodup
    rw [List.map_cons, addToGroup]
    by_cases hfound : n = name
    · subst hfound
      have hkeep : names.map (fun m => (m, if n = m then item :: group m else group m)) =
          names.map fun m => (m, group m) := by
        refine List.map_congr_left fun m hm => ?_
        have hne : n ≠ m := fun h => hn (h ▸ hm)
        rw [if_neg hne]
      rw [if_pos rfl, if_pos List.mem_cons_self, List.map_cons, if_pos rfl, hkeep]
    · have hmem : name ∈ n :: names ↔ name ∈ names := by
        rw [List.mem_cons, or_iff_right (Ne.symm hfound)]
      rw [if_neg hfound, ih hrest fun h => hname (hmem.not.mpr h)]
      by_cases hlater : name ∈ names
      · rw [if_pos hlater, if_pos (hmem.mpr hlater), List.map_cons, if_neg (Ne.symm hfound)]
      · rw [if_neg hlater, if_neg (hmem.not.mpr hlater), List.cons_append, List.map_cons, if_neg (Ne.symm hfound)]

/-- **The groups of the elements so far**: one for each text, in the order in which the texts came up, with the
elements of this text, the last one in front. -/
theorem foldl_addToGroup (entries : List (Value × String)) :
    entries.foldl (fun groups x => addToGroup groups x.2 x.1) [] = (entries.map Prod.snd).eraseDups.map
      fun text => (text, ((entries.filter (·.2 == text)).map Prod.fst).reverse) := by
  induction entries using List.reverseRecOn with
  | nil => rfl
  | append_singleton entries x ih =>
    have hnone : x.2 ∉ (entries.map Prod.snd).eraseDups →
        ((entries.filter (·.2 == x.2)).map Prod.fst).reverse = [] := by
      intro hx
      rw [List.mem_eraseDups] at hx
      rw [List.reverse_eq_nil_iff, List.map_eq_nil_iff, List.filter_eq_nil_iff]
      intro y hy heq
      exact hx (beq_iff_eq.mp heq ▸ List.mem_map_of_mem hy)
    rw [List.foldl_append, ih, List.foldl_cons, List.foldl_nil, addToGroup_map (nodup_eraseDups _) _ hnone,
      List.map_append, List.map_singleton, eraseDups_concat]
    simp only [List.mem_eraseDups]
    refine List.map_congr_left fun text _ => ?_
    rw [List.filter_append, List.filter_singleton]
    by_cases htext : x.2 = text
    · simp [htext]
    · simp [htext, beq_eq_false_iff_ne.mpr htext]

theorem answer_groupBy {run : Machine Value} {s s' : State} {items keys : List Value} (name : String)
    (h : Evaluates run s 0 items keys s') : answer run (groupBy name (.array items)) s =
      (.ok (.object ((keyTexts keys).map fun text =>
        (text, .array (((items.zip (keys.map Value.asText)).filter (·.2 == text)).map Prod.fst)))), s') := by
  have hgroups := foldl_addToGroup (items.zip (keys.map Value.asText))
  rw [List.map_snd_zip (by rw [List.length_map, h.length_eq])] at hgroups
  have hdone : answer run (groupBy name (.array items)) s =
      (.ok (.object (((items.zip (keys.map Value.asText)).foldl (fun groups x => addToGroup groups x.2 x.1)
        []).map fun group => (group.1, .array group.2.reverse))), s') := by
    rw [List.zip_map_right, List.foldl_map]
    exact h.answer_evalAll _
  rw [hdone, hgroups, List.map_map]
  simp only [Function.comp_def, List.reverse_reverse]
  rfl

/-- **`groupBy` has a group for each text of a key, in the order in which the texts come up, and in it the
elements with this text, in their order.**  So every element is in exactly one group, and no group is empty.
Of the keys nothing but the texts matters. -/
theorem groupBy_partition :
    Library.standard.handlers.get? "groupBy" = Option.some groupBy ∧
    ∀ {run : Machine Value} {s s' : State} {items keys : List Value} (name : String),
      Evaluates run s 0 items keys s' →
      answer run (groupBy name (.array items)) s = (.ok (.object ((keyTexts keys).map fun text =>
        (text, .array ((members items keys text).map (·.item))))), s') ∧
      (keyTexts keys).Nodup ∧
      (∀ x ∈ occurrences items keys, ∃! text, text ∈ keyTexts keys ∧ x ∈ members items keys text) ∧
      ((keyTexts keys).flatMap fun text => (members items keys text).map (·.item)).Perm items ∧
      (∀ text ∈ keyTexts keys, members items keys text ≠ []) ∧
      ∀ {run' : Machine Value} {t t' : State} {keys' : List Value} (name' : String),
        Evaluates run' t 0 items keys' t' → keys'.map Value.asText = keys.map Value.asText →
        (answer run' (groupBy name' (.array items)) t).1 = (answer run (groupBy name (.array items)) s).1 := by
  refine ⟨rfl, ?_⟩
  intro run s s' items keys name h
  have hanswer := answer_groupBy name h
  refine ⟨?_, nodup_eraseDups _, ?_, ?_, ?_, ?_⟩
  · simp only [members_map_item]
    exact hanswer
  · intro x hx
    refine ⟨x.key.asText, ⟨mem_keyTexts_of_mem hx, mem_members.2 ⟨hx, rfl⟩⟩, ?_⟩
    rintro text ⟨_, hmem⟩
    exact (mem_members.1 hmem).2.symm
  · rw [← List.map_flatMap]
    have hperm := (flatMap_members_perm items keys).map (·.item)
    rwa [occurrences_map_item h.length_eq] at hperm
  · intro text htext
    obtain ⟨x, hx⟩ := exists_member h.length_eq htext
    exact List.ne_nil_of_mem hx
  · intro run' t t' keys' name' h' htexts
    rw [answer_groupBy name' h', hanswer, keyTexts, keyTexts, htexts]

/-- The key `true` and the key with this text are in one group. -/
theorem byKey_groups : ∃ p code, byKey.compile = .ok p ∧ code ∈ p.blocks ∧ ∀ name,
    let run := execute ⟨.standard, 4, p, []⟩ 64 code
    let first := row (.boolean true, .string "1")
    let second := row (.null, .string "2")
    let third := row (.string "true", .string "3")
    answer run (groupBy name (.array [first, second, third])) .initial =
      (.ok (.object [("true", .array [first, third]), ("null", .array [second])]), .initial) := by
  obtain ⟨p, code, hc, hcode, hvalues, _⟩ := byKey_evaluates
  refine ⟨p, code, hc, hcode, fun name => ?_⟩
  exact (groupBy_partition.2 name (hvalues [(.boolean true, .string "1"), (.null, .string "2"),
    (.string "true", .string "3")] 0)).1

end PipeHandler

end PipeExpr
