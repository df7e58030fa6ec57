import Mathlib.Data.List.Basic

namespace Chronos.Yaml

-- A YAML document as yaml-cpp hands it out. Keys that are not scalars are found
-- by no subscript and are left out; `undefined` is what a missing entry reads as.
inductive Node where
  | undefined
  | null
  | scalar (text : String)
  | sequence (items : List Node)
  | map (entries : List (String × Node))

inductive Thrown where
  | badSubscript
  | badConversion
  deriving DecidableEq

-- What convert<T> makes of a scalar; `null` is as<std::string> of a null node,
-- in the releases that have one.
structure Scalars (F : Type) where
  double : String → Option F
  int : String → Option Int32
  uint32 : String → Option UInt32
  bool : String → Option Bool
  null : Option String

namespace Node

def isDefined : Node → Bool
  | .undefined => false
  | _ => true

def isScalar : Node → Bool
  | .scalar _ => true
  | _ => false

def items? : Node → Option (List Node)
  | .sequence items => some items
  | _ => none

def subscript (node : Node) (key : String) : Except Thrown Node :=
  match node with
  | .scalar _ => .error .badSubscript
  | .map entries => .ok ((entries.lookup key).getD .undefined)
  | .undefined | .null | .sequence _ => .ok .undefined

-- An integer subscript; in a map it looks for a key that converts to it.
def index (y : Scalars F) (node : Node) (i : Nat) : Except Thrown Node :=
  match node with
  | .scalar _ => .error .badSubscript
  | .sequence items => .ok (items.getD i .undefined)
  | .map entries => .ok ((entries.find? (fun entry => y.int entry.1 = some (Int32.ofNat i))).elim .undefined Prod.snd)
  | .undefined | .null => .ok .undefined

def convert (parse : String → Option α) : Node → Option α
  | .scalar text => parse text
  | _ => none

end Node

section As
variable (y : Scalars F)

def asDouble (node : Node) (fallback : F) : F := (node.convert y.double).getD fallback
def asInt (node : Node) (fallback : Int32) : Int32 := (node.convert y.int).getD fallback
def asUint32 (node : Node) (fallback : UInt32) : UInt32 := (node.convert y.uint32).getD fallback
def asBool (node : Node) (fallback : Bool) : Bool := (node.convert y.bool).getD fallback

def text? : Node → Option String
  | .scalar text => some text
  | .null => y.null
  | _ => none

def asText (node : Node) (fallback : String) : String := (text? y node).getD fallback

-- as<std::string>() without a default.
def text (node : Node) : Except Thrown String :=
  match text? y node with
  | some text => .ok text
  | none => .error .badConversion

end As

theorem bind_ok {step : Except ε α} {next : α → Except ε β} :
    step >>= next = .ok result ↔ ∃ value, step = .ok value ∧ next value = .ok result := by
  cases step with
  | error thrown => simp [bind,Except.bind]
  | ok value => simp [bind,Except.bind]

theorem mapM_ok {f : α → Except ε β} {xs : List α} {ys : List β} (loaded : xs.mapM f = .ok ys) :
    List.Forall₂ (fun x y => f x = .ok y) xs ys := by
  induction xs generalizing ys with
  | nil => cases loaded; exact .nil
  | cons x xs ih =>
    simp only [List.mapM_cons,bind_ok] at loaded
    obtain ⟨y,first,rest,more,last⟩ := loaded
    cases last
    exact .cons first (ih more)

theorem mapM_good {f : α → Except ε β} {good : β → Prop} {xs : List α} {ys : List β} (loaded : xs.mapM f = .ok ys)
    (each : ∀ x y, f x = .ok y → good y) : ∀ y ∈ ys, good y := by
  have pairs := mapM_ok loaded
  clear loaded
  induction pairs with
  | nil => simp
  | cons first _ ih => exact List.forall_mem_cons.mpr ⟨each _ _ first,ih⟩

theorem mapM_all {f : α → Except ε β} {good : β → Prop} {xs : List α} :
    (∃ ys, xs.mapM f = .ok ys ∧ ∀ y ∈ ys, good y) ↔ ∀ x ∈ xs, ∃ y, f x = .ok y ∧ good y := by
  induction xs with
  | nil => simp [pure,Except.pure]
  | cons x xs ih =>
    rw [List.forall_mem_cons,← ih]
    simp only [List.mapM_cons,bind_ok]
    constructor
    · rintro ⟨_,⟨y,first,ys,rest,last⟩,all⟩
      cases last
      obtain ⟨here,later⟩ := List.forall_mem_cons.mp all
      exact ⟨⟨y,first,here⟩,ys,rest,later⟩
    · rintro ⟨⟨y,first,here⟩,ys,rest,later⟩
      exact ⟨y::ys,⟨y,first,ys,rest,rfl⟩,List.forall_mem_cons.mpr ⟨here,later⟩⟩

def Returns (step : Except Thrown α) : Prop := ∃ value, step = .ok value

@[simp] theorem returns_ok {value : α} : Returns (.ok value) := ⟨value,rfl⟩

@[simp] theorem returns_pure {value : α} : Returns (pure value) := ⟨value,rfl⟩

@[simp] theorem not_returns_error {thrown : Thrown} : ¬ Returns (.error thrown : Except Thrown α) := by simp [Returns]

@[simp] theorem ok_bind {value : α} {next : α → Except Thrown β} : (.ok value >>= next) = next value := rfl

theorem returns_bind {step : Except Thrown α} {next : α → Except Thrown β} {P : Prop}
    (each : ∀ value, step = .ok value → (Returns (next value) ↔ P)) : Returns (step >>= next) ↔ Returns step ∧ P := by
  cases step with
  | error thrown => simp [bind,Except.bind]
  | ok value => simpa using each value rfl

theorem returns_last {step : Except Thrown α} {f : α → β} : Returns (step >>= fun value => pure (f value)) ↔ Returns step := by
  rw [returns_bind (P:=True) fun _ _ => iff_true_intro returns_pure,and_true]

theorem text_returns {y : Scalars F} {node : Node} : Returns (text y node) ↔ (text? y node).isSome := by
  unfold text
  cases text? y node <;> simp

theorem mapM_returns {f : α → Except Thrown β} {xs : List α} : Returns (xs.mapM f) ↔ ∀ x ∈ xs, Returns (f x) := by
  induction xs with
  | nil => simp
  | cons x xs ih =>
    rw [List.mapM_cons,List.forall_mem_cons,← ih]
    exact returns_bind fun _ _ => returns_last

end Chronos.Yaml
