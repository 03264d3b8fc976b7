import ExactDecimal.Proofs.DigitBudget
import ExactDecimal.Session
/-!
A digit count that is remembered is never stale. An operation on decimals whose counts are right, or
not there, gives the decimal that it gives without any counts, and the count that comes with it is
right or not there. Hence a pool of decimals behaves like a list of values, which remembers nothing.
To ask for a digit count changes none of these, so that nothing that follows can tell.
-/
namespace ExactDecimal

/-! ## Digit counts -/

/-- Whether an integer is written with `p` digits; zero has one. -/
def IsDigitCount (n : Int) (p : Nat) : Prop :=
  if n = 0 then p = 1 else pow10 (p - 1) ≤ n.natAbs ∧ n.natAbs < pow10 p

theorem isDigitCount_iff {d : Decimal} {p : Nat} :
    IsDigitCount d.magnitude p ↔ p = d.precision := by
  unfold IsDigitCount
  split
  · rename_i hz
    rw [Decimal.precision_of_zero hz]
  · rename_i hz
    have hz := Int.natAbs_ne_zero.mpr hz
    constructor
    · rintro ⟨hl, hu⟩
      have hp : 0 < p := by
        refine Nat.pos_of_ne_zero ?_
        rintro rfl
        exact hz (Nat.lt_one_iff.mp hu)
      exact (digitCount_eq_of_bounds hp hl hu).symm
    · rintro rfl
      exact ⟨pow10_le_of_lt_digitCount hz (Nat.sub_one_lt d.precision_pos.ne'),
        lt_pow10_digitCount _⟩

theorem Counted.valid_iff {c : Counted} :
    c.Valid ↔ c.count = 0 ∨ IsDigitCount c.value.magnitude c.count := by
  rw [isDigitCount_iff, Counted.Valid]

/-! ## One operation -/

namespace Counted

/-- Whether a result is the one without counts, and the count that comes with it is right. -/
inductive Agrees : Except Failure Counted → Except Failure Decimal → Prop where
  | ok {c : Counted} {d : Decimal} (hc : c.Valid) (hd : c.value = d) : Agrees (.ok c) (.ok d)
  | error (failure : Failure) : Agrees (.error failure) (.error failure)

theorem agrees_fresh (result : Except Failure Decimal) : Agrees (result.map fresh) result := by
  cases result with
  | error failure => exact .error failure
  | ok d => exact .ok (valid_fresh d) rfl

theorem Agrees.bind {result : Except Failure Counted} {plain : Except Failure Decimal}
    {f : Counted → Except Failure Counted} {g : Decimal → Except Failure Decimal}
    (h : Agrees result plain) (hf : ∀ c, c.Valid → Agrees (f c) (g c.value)) :
    Agrees (result >>= f) (plain >>= g) := by
  cases h with
  | error failure => exact .error failure
  | ok hc hd =>
    rw [ok_bind, ok_bind, ← hd]
    exact hf _ hc

section Operations

variable {c : Counted} (h : c.Valid)

include h

theorem valid_abs : c.abs.Valid := by
  unfold abs
  split
  · exact valid_fresh _
  · exact h

omit h in
theorem value_abs : c.abs.value = c.value.abs := by
  have hnegative : c.value.isNegative = true ↔ c.value.magnitude < 0 := decide_eq_true_iff
  unfold abs
  split
  · rename_i h
    have := hnegative.mp h
    refine Decimal.ext ?_ rfl
    change -c.value.magnitude = c.value.magnitude.natAbs
    omega
  · rename_i h
    have := mt hnegative.mpr h
    refine Decimal.ext ?_ rfl
    change c.value.magnitude = c.value.magnitude.natAbs
    omega

theorem agrees_round (context : Context) :
    Agrees ((c.round context).mapError .arithmetic)
      ((c.value.round context).mapError .arithmetic) := by
  rw [round, precision_eq h]
  split
  · rename_i hlimit
    rw [Decimal.round_eq_self hlimit]
    exact .ok (valid_asked h) rfl
  · change Agrees (((c.value.round context).map fun d => (fresh d).asked).mapError .arithmetic) _
    cases c.value.round context with
    | error cause => exact .error _
    | ok d => exact .ok (valid_asked (valid_fresh d)) rfl

theorem agrees_unary (op : Unary) : Agrees (c.unary op) (op.run c.value) := by
  have hfresh := agrees_fresh (op.run c.value)
  cases op with
  | abs => exact .ok (valid_abs h) value_abs
  | round context => exact agrees_round h context
  | _ => exact hfresh

theorem agrees_ite {b : Counted} (hb : b.Valid) (p : Prop) [Decidable p] :
    Agrees (.ok (if p then c else b)) (.ok (if p then c.value else b.value)) := by
  by_cases hp : p
  · rw [if_pos hp, if_pos hp]
    exact .ok h rfl
  · rw [if_neg hp, if_neg hp]
    exact .ok hb rfl

theorem agrees_binary (op : Binary) {b : Counted} (hb : b.Valid) :
    Agrees (c.binary op b) (op.run c.value b.value) := by
  have hfresh := agrees_fresh (op.run c.value b.value)
  cases op with
  | max => exact agrees_ite h hb _
  | min => exact agrees_ite h hb _
  | _ => exact hfresh

theorem agrees_fold (op : Binary) {cs : List Counted} (hcs : ∀ b ∈ cs, b.Valid) :
    Agrees (c.fold op cs) ((cs.map value).foldlM op.run c.value) := by
  induction cs generalizing c with
  | nil => exact .ok h rfl
  | cons b cs ih =>
    rw [fold, List.foldlM_cons, List.map_cons, List.foldlM_cons]
    obtain ⟨hb, hcs⟩ := List.forall_mem_cons.mp hcs
    exact (agrees_binary h op hb).bind fun next hnext => ih hnext hcs

end Operations

end Counted

namespace Decimal

theorem foldlM_add (a : Decimal) (ds : List Decimal) :
    ds.foldlM Binary.add.run a = .ok (ds.foldl (· + ·) a) := by
  induction ds generalizing a with
  | nil => rfl
  | cons d ds ih => exact ih (a + d)

theorem foldlM_mul (a : Decimal) (ds : List Decimal) :
    ds.foldlM Binary.mul.run a = (ds.foldlM mul? a).mapError .product := by
  induction ds generalizing a with
  | nil => rfl
  | cons d ds ih =>
    rw [List.foldlM_cons, List.foldlM_cons, Binary.run]
    cases a.mul? d with
    | error cause => rfl
    | ok b => exact ih b

end Decimal

/-! ## Values alone -/

/-- What is made of values, without counts. -/
def Maker.run? (ds : List Decimal) : Maker → Option (Except Failure Decimal)
  | origin o => some o.run
  | constant c => some (.ok c.value)
  | clone k => ds[k]?.map .ok
  | unary op k => ds[k]?.map op.run
  | binary op j k => do
    let a ← ds[j]?
    let b ← ds[k]?
    some (op.run a b)
  | sum ks => (ks.mapM fun k => ds[k]?).map fun items => .ok (Decimal.sum items)
  | product ks => (ks.mapM fun k => ds[k]?).map fun items =>
    (Decimal.product items).mapError .product

namespace Values

def settle (ds : List Decimal) (place : Decimal → List Decimal) :
    Except Failure Decimal → List Decimal × Answer
  | .ok d => (place d, .made d)
  | .error failure => (ds, .failed failure)

def step? (ds : List Decimal) : Action → Option (List Decimal × Answer)
  | .make m => (m.run? ds).map (settle ds fun d => ds ++ [d])
  | .assign m k => do
    let _ ← ds[k]?
    (m.run? ds).map (settle ds fun d => ds.set k d)
  | .look l => (l.run? ds).map fun answer => (ds, answer)
  | .ask k => ds[k]?.map fun d => (ds, .digits d.precision)

/-- A step of a program whose decimals remember nothing. -/
def step (ds : List Decimal) (a : Action) : List Decimal × Answer :=
  (step? ds a).getD (ds, .absent)

theorem step_of_isAsk (ds : List Decimal) {a : Action} (h : a.isAsk = true) :
    (step ds a).1 = ds := by
  cases a with
  | ask k => cases hk : ds[k]? <;> simp [step, step?, hk]
  | _ => cases h

/-- Asking leaves no trace but its own answer. -/
theorem play_filter (ds : List Decimal) (program : List Action) :
    play step ds (program.filter fun a => !a.isAsk) =
      ((play step ds program).1, (play step ds program).2.filter fun entry => !entry.1.isAsk) := by
  induction program generalizing ds with
  | nil => rfl
  | cons a program ih =>
    by_cases ha : a.isAsk = true
    · simp [play, ha, ih, step_of_isAsk ds ha]
    · simp [play, ha, ih]

end Values

/-! ## A pool -/

namespace Pool

open Counted

/-- Whether all counts that are remembered are right, and every constant is the one it should be. -/
structure Valid (w : Pool) : Prop where
  cells : ∀ c ∈ w.cells, c.Valid
  shared : ∀ k c, w.shared k = some c → c.Valid ∧ c.value = k.value

theorem valid_empty : empty.Valid where
  cells := List.forall_mem_nil _
  shared := by
    intro k c h
    cases h

@[simp] theorem getElem?_values (w : Pool) (k : Nat) : w.values[k]? = w.cells[k]?.map value :=
  List.getElem?_map

theorem mapM_values (w : Pool) (ks : List Nat) :
    (ks.mapM fun k => w.values[k]?) = (ks.mapM fun k => w.cells[k]?).map (List.map value) := by
  induction ks with
  | nil => rfl
  | cons k ks ih =>
    rw [List.mapM_cons, List.mapM_cons, ih, getElem?_values]
    cases w.cells[k]? with
    | none => rfl
    | some c => cases ks.mapM fun k => w.cells[k]? <;> rfl

theorem mem_of_mapM {w : Pool} {ks : List Nat} {cs : List Counted}
    (h : (ks.mapM fun k => w.cells[k]?) = some cs) : ∀ c ∈ cs, c ∈ w.cells := by
  induction ks generalizing cs with
  | nil =>
    cases h
    exact List.forall_mem_nil _
  | cons k ks ih =>
    rw [List.mapM_cons] at h
    obtain ⟨c, hc, h⟩ := Option.bind_eq_some_iff.mp h
    obtain ⟨rest, hrest, h⟩ := Option.bind_eq_some_iff.mp h
    cases h
    exact List.forall_mem_cons.mpr ⟨List.mem_of_getElem? hc, ih hrest⟩

theorem rel_map {α β γ δ : Type} {r : α → β → Prop} {s : γ → δ → Prop} {f : α → γ} {g : β → δ}
    {x : Option α} {y : Option β} (h : Option.Rel r x y) (hf : ∀ a b, r a b → s (f a) (g b)) :
    Option.Rel s (x.map f) (y.map g) := by
  cases h with
  | none => exact .none
  | some h => exact .some (hf _ _ h)

section Step

variable {w : Pool} (h : w.Valid)

include h

theorem valid_put {c : Counted} (hc : c.Valid) : (w.put c).Valid := by
  refine ⟨?_, h.shared⟩
  intro d hd
  obtain hd | hd := List.mem_append.mp hd
  · exact h.cells d hd
  · exact List.mem_singleton.mp hd ▸ hc

theorem valid_replace {c : Counted} (hc : c.Valid) (k : Nat) : (w.replace k c).Valid := by
  refine ⟨?_, h.shared⟩
  intro d hd
  obtain hd | rfl := List.mem_or_eq_of_mem_set hd
  · exact h.cells d hd
  · exact hc

theorem valid_of_getElem? {k : Nat} {c : Counted} (hk : w.cells[k]? = some c) : c.Valid :=
  h.cells c (List.mem_of_getElem? hk)

theorem constant_eq (k : Constant) : (w.constant k).Valid ∧ (w.constant k).value = k.value := by
  unfold constant
  cases hk : w.shared k with
  | some c => exact h.shared k c hk
  | none =>
    rw [Option.getD_none, Constant.built_eq]
    exact ⟨valid_asked (valid_fresh _), rfl⟩

theorem valid_share (k : Constant) : (w.share k).Valid := by
  refine ⟨h.cells, ?_⟩
  intro other c hc
  simp only [share] at hc
  split at hc
  · rename_i heq
    cases hc
    exact heq ▸ constant_eq h k
  · exact h.shared other c hc

omit h in
theorem values_replace_asked {k : Nat} {c : Counted} (hk : w.cells[k]? = some c) :
    (w.replace k c.asked).values = w.values := by
  change (w.cells.set k c.asked).map value = w.cells.map value
  rw [List.map_set, value_asked]
  apply List.ext_getElem?
  intro i
  rw [List.getElem?_set]
  split
  · rename_i hi
    subst hi
    rw [List.getElem?_map, hk]
    have hlt := (List.getElem?_eq_some_iff.mp hk).1
    simp [hlt]
  · rfl

theorem unary_eq (op : Unary) {k : Nat} {c : Counted} (hk : w.cells[k]? = some c) :
    (w.unary op k c).1.Valid ∧ (w.unary op k c).1.values = w.values ∧
      Agrees (w.unary op k c).2 (op.run c.value) := by
  have hc := valid_of_getElem? h hk
  have hunary := agrees_unary hc op
  obtain ⟨hone, hvalue⟩ := constant_eq h .one
  have hscale (scale : Int) (mode : RoundingMode) :=
    agrees_binary hc (.divideToScale scale mode) hone
  rw [hvalue] at hscale
  cases op with
  | round context =>
    exact ⟨valid_replace h (valid_asked hc) k, values_replace_asked hk, hunary⟩
  | withScale scale => exact ⟨valid_share h .one, rfl, hscale scale .unnecessary⟩
  | withScaleRound scale mode => exact ⟨valid_share h .one, rfl, hscale scale mode⟩
  | _ => exact ⟨h, rfl, hunary⟩

/-- A list is added or multiplied up from a constant, which is called for. -/
theorem fold_rel (k : Constant) (op : Binary) (ks : List Nat)
    {plain : List Decimal → Except Failure Decimal}
    (hplain : ∀ ds, ds.foldlM op.run k.value = plain ds) :
    Option.Rel (fun made plain => made.1.Valid ∧ made.1.values = w.values ∧ Agrees made.2 plain)
      ((ks.mapM fun k => w.cells[k]?).map fun cs => (w.share k, (w.constant k).fold op cs))
      ((ks.mapM fun k => w.values[k]?).map plain) := by
  rw [mapM_values]
  cases hks : ks.mapM fun k => w.cells[k]? with
  | none => exact .none
  | some cs =>
    obtain ⟨hk, hvalue⟩ := constant_eq h k
    have hfold := agrees_fold hk op fun c hc => h.cells c (mem_of_mapM hks c hc)
    rw [hvalue, hplain] at hfold
    exact .some ⟨valid_share h k, rfl, hfold⟩

/-- What is made agrees with what is made of the values, and these stay. -/
theorem make?_rel (m : Maker) :
    Option.Rel (fun made plain => made.1.Valid ∧ made.1.values = w.values ∧ Agrees made.2 plain)
      (w.make? m) (m.run? w.values) := by
  cases m with
  | origin o => exact .some ⟨h, rfl, agrees_fresh _⟩
  | constant k =>
    obtain ⟨hk, hvalue⟩ := constant_eq h k
    exact .some ⟨valid_share h k, rfl, .ok hk hvalue⟩
  | clone k =>
    rw [make?, Maker.run?, getElem?_values]
    cases hk : w.cells[k]? with
    | none => exact .none
    | some c => exact .some ⟨h, rfl, .ok (valid_of_getElem? h hk) rfl⟩
  | unary op k =>
    rw [make?, Maker.run?, getElem?_values]
    cases hk : w.cells[k]? with
    | none => exact .none
    | some c => exact .some (unary_eq h op hk)
  | binary op j k =>
    rw [make?, Maker.run?, getElem?_values, getElem?_values]
    cases hj : w.cells[j]? with
    | none => exact .none
    | some a =>
      cases hk : w.cells[k]? with
      | none => exact .none
      | some b =>
        exact .some ⟨h, rfl, agrees_binary (valid_of_getElem? h hj) op (valid_of_getElem? h hk)⟩
  | sum ks => exact fold_rel h .zero .add ks (Decimal.foldlM_add .zero)
  | product ks => exact fold_rel h .one .mul ks (Decimal.foldlM_mul .one)

omit h in
theorem settle_eq {made : Pool × Except Failure Counted} {plain : Except Failure Decimal}
    {place : Pool → Counted → Pool} {placeValue : Decimal → List Decimal}
    (hmade : made.1.Valid ∧ made.1.values = w.values ∧ Agrees made.2 plain)
    (hplace : ∀ c, c.Valid →
      (place made.1 c).Valid ∧ (place made.1 c).values = placeValue c.value) :
    (settle place made).1.Valid ∧
      ((settle place made).1.values, (settle place made).2) =
        Values.settle w.values placeValue plain := by
  obtain ⟨next, result⟩ := made
  obtain ⟨hvalid, hvalues, hresult⟩ := hmade
  cases hresult with
  | error failure => exact ⟨hvalid, Prod.ext hvalues rfl⟩
  | ok hc hd =>
    obtain ⟨hplaced, hvalue⟩ := hplace _ hc
    subst hd
    exact ⟨hplaced, Prod.ext hvalue rfl⟩

/-- A step keeps the counts right, and it does to the values, and answers, what it does when
nothing is remembered. -/
theorem step?_rel (a : Action) :
    Option.Rel (fun next plain => next.1.Valid ∧ (next.1.values, next.2) = plain)
      (w.step? a) (Values.step? w.values a) := by
  cases a with
  | make m =>
    refine rel_map (make?_rel h m) fun made plain hmade => settle_eq hmade fun c hc => ?_
    refine ⟨valid_put hmade.1 hc, ?_⟩
    rw [← hmade.2.1]
    exact List.map_append
  | assign m k =>
    rw [step?, Values.step?, getElem?_values]
    cases w.cells[k]? with
    | none => exact .none
    | some old =>
      refine rel_map (make?_rel h m) fun made plain hmade => settle_eq hmade fun c hc => ?_
      refine ⟨valid_replace hmade.1 hc k, ?_⟩
      rw [← hmade.2.1]
      exact List.map_set
  | look l =>
    rw [step?, Values.step?]
    cases l.run? w.values with
    | none => exact .none
    | some answer => exact .some ⟨h, rfl⟩
  | ask k =>
    rw [step?, Values.step?, getElem?_values]
    cases hk : w.cells[k]? with
    | none => exact .none
    | some c =>
      have hc := valid_of_getElem? h hk
      exact .some ⟨valid_replace h (valid_asked hc) k,
        Prod.ext (values_replace_asked hk) (congrArg Answer.digits (precision_eq hc))⟩

theorem step_eq (a : Action) :
    (w.step a).1.Valid ∧ ((w.step a).1.values, (w.step a).2) = Values.step w.values a := by
  have hrel := step?_rel h a
  unfold step Values.step
  generalize w.step? a = next, Values.step? w.values a = plain at hrel ⊢
  cases hrel with
  | none => exact ⟨h, rfl⟩
  | some hnext => exact hnext

end Step

/-- So does a whole program. -/
theorem play_eq {w : Pool} (h : w.Valid) (program : List Action) :
    (play step w program).1.Valid ∧
      ((play step w program).1.values, (play step w program).2) =
        play Values.step w.values program := by
  induction program generalizing w with
  | nil => exact ⟨h, rfl⟩
  | cons a program ih =>
    obtain ⟨hvalid, hstep⟩ := step_eq h a
    obtain ⟨hrest, hplay⟩ := ih hvalid
    refine ⟨hrest, ?_⟩
    rw [play, play, ← hstep, ← hplay]

theorem valid_run (program : List Action) : (run program).1.Valid := (play_eq valid_empty program).1

theorem run_eq (program : List Action) :
    ((run program).1.values, (run program).2) = play Values.step [] program :=
  (play_eq valid_empty program).2

/-- Whatever a program has done, every decimal of it and every shared constant has the digit count
of its own magnitude or none, and to be asked it answers that count, which is the only one that
there is. The values and all the other answers are those of the program that never asks. -/
theorem run_counts_never_stale (program : List Action) :
    (∀ c ∈ (run program).1.cells, c.count = 0 ∨ IsDigitCount c.value.magnitude c.count) ∧
    (∀ k c, (run program).1.shared k = some c →
      c.value = k.value ∧ (c.count = 0 ∨ IsDigitCount c.value.magnitude c.count)) ∧
    (∀ k c, (run program).1.cells[k]? = some c →
      ∃ p, ((run program).1.step (.ask k)).2 = .digits p ∧
        ∀ q, IsDigitCount c.value.magnitude q ↔ q = p) ∧
    (run program).1.values = (run (program.filter fun a => !a.isAsk)).1.values ∧
    ((run program).2.filter fun entry => !entry.1.isAsk) =
      (run (program.filter fun a => !a.isAsk)).2 := by
  have hvalid := valid_run program
  refine ⟨?_, ?_, ?_, ?_⟩
  · intro c hc
    exact valid_iff.mp (hvalid.cells c hc)
  · intro k c hk
    obtain ⟨hc, hvalue⟩ := hvalid.shared k c hk
    exact ⟨hvalue, valid_iff.mp hc⟩
  · intro k c hk
    refine ⟨c.value.precision, ?_, fun q => isDigitCount_iff⟩
    rw [step, step?, hk, ← precision_eq (valid_of_getElem? hvalid hk)]
    rfl
  · have hasked := run_eq program
    have hsilent := run_eq (program.filter fun a => !a.isAsk)
    rw [Values.play_filter, ← hasked] at hsilent
    obtain ⟨hvalues, htrace⟩ := Prod.mk.inj hsilent
    exact ⟨hvalues.symm, htrace.symm⟩

/-- Of `99.95` and a copy of it only the first has been asked, and both round to `100`. -/
theorem run_counts_never_stale_of_copies :
    let program : List Action := [.make (.origin (.decimal ⟨9995, 2, by decide⟩)),
      .make (.clone 0), .ask 0, .make (.unary (.round ⟨3, .halfEven⟩) 0),
      .make (.unary (.round ⟨3, .halfEven⟩) 1)]
    (∃ p, ((run program).1.step (.ask 3)).2 = .digits p ∧ ∀ q, IsDigitCount 100 q ↔ q = p) ∧
    ((run program).2.filter fun entry => !entry.1.isAsk).map Prod.snd =
      [.made ⟨9995, 2, by decide⟩, .made ⟨9995, 2, by decide⟩, .made ⟨100, 0, by decide⟩,
        .made ⟨100, 0, by decide⟩] := by
  intro program
  obtain ⟨-, -, hask, -, htrace⟩ := run_counts_never_stale program
  have hcell : (run program).1.cells[3]? = some ⟨⟨100, 0, by decide⟩, 3⟩ := by decide
  refine ⟨hask 3 _ hcell, ?_⟩
  rw [htrace]
  decide

end Pool

/-! ## Sessions -/

namespace Session

open Counted

/-- Whether a report gives the digit count of the decimal that it shows. -/
def Sound : Except Failure Report → Prop
  | .ok (.current d n) => n = d.precision
  | _ => True

variable {s : Session}

theorem follow_sound (s : Session) {made : Pool × Except Failure Counted}
    {plain : Except Failure Decimal} (hmade : made.1.Valid) (h : Agrees made.2 plain) :
    (s.follow made).1.pool.Valid ∧ Sound (s.follow made).2 := by
  obtain ⟨pool, result⟩ := made
  cases h with
  | error failure => exact ⟨hmade, trivial⟩
  | ok hc hd => exact ⟨Pool.valid_put hmade (valid_asked hc), precision_eq hc⟩

theorem make_sound {w : Pool} (h : w.Valid) (s : Session) {m : Maker}
    {next : Session × Except Failure Report} (hnext : (w.make? m).map s.follow = some next) :
    next.1.pool.Valid ∧ Sound next.2 := by
  obtain ⟨made, hmade, rfl⟩ := Option.map_eq_some_iff.mp hnext
  have hrel := Pool.make?_rel h m
  rw [hmade] at hrel
  generalize m.run? w.values = plain at hrel
  cases hrel with
  | some hrel => exact follow_sound s hrel.1 hrel.2.2

theorem fetch_valid (h : s.pool.Valid) {b : Operand} {next : Session × Nat}
    (hnext : s.fetch b = some next) : next.1.pool.Valid := by
  cases b with
  | decimal d =>
    cases hnext
    exact Pool.valid_put h (valid_fresh d)
  | register k =>
    obtain ⟨place, -, rfl⟩ := Option.map_eq_some_iff.mp hnext
    exact h

theorem step_sound (h : s.pool.Valid) {step : Step} {next : Session × Except Failure Report}
    (hnext : s.step step = some next) : next.1.pool.Valid ∧ Sound next.2 := by
  cases step with
  | unary op => exact make_sound h s hnext
  | push => exact make_sound h _ hnext
  | binary op b =>
    obtain ⟨fetched, hfetch, hnext⟩ := Option.bind_eq_some_iff.mp hnext
    exact make_sound (fetch_valid h hfetch) fetched.1 hnext
  | load b =>
    obtain ⟨fetched, hfetch, hnext⟩ := Option.bind_eq_some_iff.mp hnext
    exact make_sound (fetch_valid h hfetch) fetched.1 hnext
  | precision =>
    obtain ⟨c, hc, rfl⟩ := Option.map_eq_some_iff.mp hnext
    exact ⟨Pool.valid_replace h (valid_asked (Pool.valid_of_getElem? h hc)) _, trivial⟩
  | compare b =>
    obtain ⟨fetched, hfetch, hnext⟩ := Option.bind_eq_some_iff.mp hnext
    obtain ⟨a, -, hnext⟩ := Option.bind_eq_some_iff.mp hnext
    obtain ⟨c, -, hnext⟩ := Option.bind_eq_some_iff.mp hnext
    cases hnext
    exact ⟨fetch_valid h hfetch, trivial⟩
  | write =>
    obtain ⟨c, -, rfl⟩ := Option.map_eq_some_iff.mp hnext
    exact ⟨h, trivial⟩

theorem run_sound (h : s.pool.Valid) {steps : List Step}
    {ran : Session × List (Except Failure Report)} (hran : s.run steps = some ran) :
    ran.1.pool.Valid ∧ ∀ report ∈ ran.2, Sound report := by
  induction steps generalizing s ran with
  | nil =>
    cases hran
    exact ⟨h, List.forall_mem_nil _⟩
  | cons step steps ih =>
    obtain ⟨next, hnext, hran⟩ := Option.bind_eq_some_iff.mp hran
    obtain ⟨rest, hrest, hran⟩ := Option.bind_eq_some_iff.mp hran
    cases hran
    obtain ⟨hvalid, hsound⟩ := step_sound h hnext
    obtain ⟨hfinal, hreports⟩ := ih hvalid hrest
    exact ⟨hfinal, List.forall_mem_cons.mpr ⟨hsound, hreports⟩⟩

/-- Every decimal that a calculation reports comes with its own digit count. -/
theorem run_start_sound {d : Decimal} {steps : List Step}
    {ran : Session × List (Except Failure Report)} (hran : (start d).run steps = some ran) :
    ∀ report ∈ ran.2, Sound report :=
  (run_sound (Pool.valid_put Pool.valid_empty (valid_fresh d)) hran).2

end Session

end ExactDecimal
