import Chronos.Yaml
import Mathlib.Data.List.Forall2
import Mathlib.Data.List.Nodup
import Mathlib.Data.List.Perm.Basic
import Mathlib.Data.Option.Basic
import Mathlib.Logic.Relation

namespace Chronos.Yaml
open Relation (EqvGen)

-- Edits that a reader of some keys does not see: entries of a map change places,
-- or one comes or goes that is under none of the keys, anywhere in the document.
-- A reader may also subscript with the integer 0.
inductive Edit (y : Scalars F) (keys : List String) : Node → Node → Prop where
  | reorder (moved : entries.Perm entries') (distinct : (entries.map Prod.fst).Nodup)
      (one : (entries.filter fun entry => y.int entry.1 = some 0).length ≤ 1) : Edit y keys (.map entries) (.map entries')
  | extra (unread : key ∉ keys) (other : y.int key ≠ some 0) :
      Edit y keys (.map (before++(key,value)::after)) (.map (before++after))
  | value (inside : Edit y keys value value') : Edit y keys (.map (before++(key,value)::after)) (.map (before++(key,value')::after))
  | item (inside : Edit y keys value value') : Edit y keys (.sequence (before++value::after)) (.sequence (before++value'::after))

def Alike (y : Scalars F) (keys : List String) : Node → Node → Prop := EqvGen (Edit y keys)

def Agree (R : α → β → Prop) : Except Thrown α → Except Thrown β → Prop
  | .ok a,.ok b => R a b
  | .error thrown,.error thrown' => thrown = thrown'
  | _,_ => False

theorem Agree.refl {R : α → α → Prop} (reflexive : ∀ a, R a a) (step : Except Thrown α) : Agree R step step := by
  cases step with
  | error thrown => exact rfl
  | ok value => exact reflexive value

theorem Agree.symm {R : α → α → Prop} (symmetric : ∀ a b, R a b → R b a) {one other : Except Thrown α}
    (agree : Agree R one other) : Agree R other one := by
  cases one <;> cases other <;> first | exact agree.elim | exact Eq.symm agree | exact symmetric _ _ agree

theorem Agree.trans {R : α → α → Prop} (transitive : ∀ a b c, R a b → R b c → R a c) {one other last : Except Thrown α}
    (agree : Agree R one other) (more : Agree R other last) : Agree R one last := by
  cases one <;> cases other <;> cases last <;>
    first | exact agree.elim | exact more.elim | exact Eq.trans agree more | exact transitive _ _ _ agree more

theorem agree_eq {one other : Except Thrown α} : Agree Eq one other ↔ one = other := by
  cases one <;> cases other <;> simp [Agree]

theorem Agree.bind {R : α → β → Prop} {Q : α' → β' → Prop} {one : Except Thrown α} {other : Except Thrown β}
    {next : α → Except Thrown α'} {next' : β → Except Thrown β'} (agree : Agree R one other)
    (follow : ∀ a b, R a b → Agree Q (next a) (next' b)) : Agree Q (one >>= next) (other >>= next') := by
  cases one <;> cases other <;> first | exact agree.elim | exact agree | exact follow _ _ agree

theorem Agree.mapM {R : α → β → Prop} {Q : α' → β' → Prop} {f : α → Except Thrown α'} {f' : β → Except Thrown β'}
    (each : ∀ a b, R a b → Agree Q (f a) (f' b)) {xs : List α} {ys : List β} (alike : List.Forall₂ R xs ys) :
    Agree (List.Forall₂ Q) (xs.mapM f) (ys.mapM f') := by
  induction alike with
  | nil => exact .nil
  | cons first _ ih =>
    rw [List.mapM_cons,List.mapM_cons]
    exact (each _ _ first).bind fun _ _ head => ih.bind fun _ _ tail => .cons head tail

theorem forall₂_trans {R : α → α → Prop} (transitive : ∀ a b c, R a b → R b c → R a c) {xs ys zs : List α}
    (front : List.Forall₂ R xs ys) (back : List.Forall₂ R ys zs) : List.Forall₂ R xs zs := by
  induction front generalizing zs with
  | nil => exact back
  | cons first _ ih =>
    cases back with
    | cons next rest => exact .cons (transitive _ _ _ first next) (ih rest)

-- All a reader of some keys can see of two nodes is the same, down to the
-- children it can get at.
structure Conform (y : Scalars F) (keys : List String) (R : Node → Node → Prop) (node node' : Node) : Prop where
  defined : node.isDefined = node'.isDefined
  scalar : ∀ {α : Type} (parse : String → Option α), node.convert parse = node'.convert parse
  text : text? y node = text? y node'
  items : Option.Rel (List.Forall₂ R) node.items? node'.items?
  subscript : ∀ key ∈ keys, Agree R (node.subscript key) (node'.subscript key)
  first : Agree R (node.index y 0) (node'.index y 0)

section Conforms
variable {y : Scalars F} {keys : List String} {R : Node → Node → Prop}

theorem Conform.refl (reflexive : ∀ node, R node node) (node : Node) : Conform y keys R node node where
  defined := rfl
  scalar _ := rfl
  text := rfl
  items := by
    cases node.items? with
    | none => exact .none
    | some items => exact .some (List.forall₂_same.mpr fun item _ => reflexive item)
  subscript _ _ := .refl reflexive _
  first := .refl reflexive _

theorem Conform.symm (symmetric : ∀ a b, R a b → R b a) (conform : Conform y keys R node node') :
    Conform y keys R node' node where
  defined := conform.defined.symm
  scalar parse := (conform.scalar parse).symm
  text := conform.text.symm
  items := by
    have items := conform.items
    cases one : node.items? <;> cases other : node'.items? <;> rw [one,other] at items <;> cases items
    · exact .none
    · rename_i alike
      exact .some (List.Forall₂.flip (alike.imp symmetric))
  subscript key read := (conform.subscript key read).symm symmetric
  first := conform.first.symm symmetric

theorem Conform.trans (transitive : ∀ a b c, R a b → R b c → R a c) (conform : Conform y keys R node node')
    (more : Conform y keys R node' node'') : Conform y keys R node node'' where
  defined := conform.defined.trans more.defined
  scalar parse := (conform.scalar parse).trans (more.scalar parse)
  text := conform.text.trans more.text
  items := by
    have items := conform.items
    have others := more.items
    cases one : node.items? <;> cases other : node'.items? <;> cases last : node''.items? <;>
      rw [one,other] at items <;> rw [other,last] at others <;> cases items <;> cases others
    · exact .none
    · rename_i alike also
      exact .some (forall₂_trans transitive alike also)
  subscript key read := (conform.subscript key read).trans transitive (more.subscript key read)
  first := conform.first.trans transitive more.first

end Conforms

def pick (pass : String → Bool) (entries : List (String × Node)) : Node :=
  (entries.find? fun entry => pass entry.1).elim .undefined Prod.snd

theorem subscript_pick (entries : List (String × Node)) (key : String) :
    (Node.map entries).subscript key = .ok (pick (key == ·) entries) := by
  simp only [Node.subscript,pick]
  congr 1
  induction entries with
  | nil => rfl
  | cons entry rest ih =>
    rw [List.lookup_cons,List.find?_cons]
    cases key == entry.1 <;> first | exact ih | rfl

theorem index_pick (y : Scalars F) (entries : List (String × Node)) :
    (Node.map entries).index y 0 = .ok (pick (fun key => y.int key = some 0) entries) := rfl

theorem pick_perm {pass : String → Bool} {entries entries' : List (String × Node)} (moved : entries.Perm entries')
    (one : (entries.filter fun entry => pass entry.1).length ≤ 1) : pick pass entries = pick pass entries' := by
  have same := moved.filter fun entry => pass entry.1
  unfold pick
  rw [← List.head?_filter,← List.head?_filter]
  cases found : entries.filter fun entry => pass entry.1 with
  | nil => rw [found] at same; rw [same.nil_eq]
  | cons entry rest =>
    rw [found] at same one
    obtain rfl : rest = [] := List.eq_nil_of_length_eq_zero (by simpa using one)
    rw [List.singleton_perm.mp same]

theorem distinct_once {entries : List (String × Node)} (distinct : (entries.map Prod.fst).Nodup) (key : String) :
    (entries.filter fun entry => key == entry.1).length ≤ 1 := by
  have count := List.nodup_iff_count_le_one.mp distinct key
  rw [List.count,List.countP_map,List.countP_eq_length_filter] at count
  refine Nat.le_trans (Nat.le_of_eq ?_) count
  congr 2
  funext entry
  simp [Bool.beq_comm]

theorem pick_extra {pass : String → Bool} {before after : List (String × Node)} (unread : pass key = false) :
    pick pass (before++(key,value)::after) = pick pass (before++after) := by
  simp [pick,List.find?_append,unread]

variable {y : Scalars F} {keys : List String}

theorem Alike.refl (node : Node) : Alike y keys node node := EqvGen.refl node

theorem pick_value (pass : String → Bool) (before after : List (String × Node)) (inside : Alike y keys value value') :
    Alike y keys (pick pass (before++(key,value)::after)) (pick pass (before++(key,value')::after)) := by
  simp only [pick,List.find?_append]
  cases before.find? fun entry => pass entry.1 with
  | some => exact .refl _
  | none =>
    simp only [List.find?_cons,Option.none_or]
    cases pass key
    · exact .refl _
    · exact inside

theorem edit_conform {node node' : Node} (edit : Edit y keys node node') : Conform y keys (Alike y keys) node node' := by
  cases edit with
  | reorder moved distinct one =>
    refine ⟨rfl,fun _ => rfl,rfl,.none,fun key _ => ?_,?_⟩
    · rw [subscript_pick,subscript_pick,pick_perm moved (distinct_once distinct key)]
      exact Alike.refl _
    · rw [index_pick,index_pick,pick_perm moved one]
      exact Alike.refl _
  | extra unread other =>
    rename_i gone _ _ _
    refine ⟨rfl,fun _ => rfl,rfl,.none,fun key read => ?_,?_⟩
    · have different := beq_eq_false_iff_ne.mpr fun same : key = gone => unread (same ▸ read)
      rw [subscript_pick,subscript_pick,pick_extra different]
      exact Alike.refl _
    · rw [index_pick,index_pick,pick_extra (by simpa using other)]
      exact Alike.refl _
  | value inside =>
    refine ⟨rfl,fun _ => rfl,rfl,.none,fun key _ => ?_,?_⟩
    · rw [subscript_pick,subscript_pick]
      exact pick_value _ _ _ (.rel _ _ inside)
    · rw [index_pick,index_pick]
      exact pick_value _ _ _ (.rel _ _ inside)
  | item inside =>
    rename_i value value' before after
    have alike : List.Forall₂ (Alike y keys) (before++value::after) (before++value'::after) :=
      List.rel_append (List.forall₂_same.mpr fun item _ => .refl item)
        (.cons (.rel _ _ inside) (List.forall₂_same.mpr fun item _ => .refl item))
    refine ⟨rfl,fun _ => rfl,rfl,.some alike,fun _ _ => Alike.refl _,?_⟩
    show Alike y keys _ _
    cases before with
    | nil => exact .rel _ _ inside
    | cons => exact .refl _

theorem alike_conform {node node' : Node} (alike : Alike y keys node node') : Conform y keys (Alike y keys) node node' := by
  induction alike with
  | rel _ _ edit => exact edit_conform edit
  | refl => exact .refl .refl _
  | symm _ _ _ ih => exact ih.symm fun _ _ => .symm _ _
  | trans _ _ _ _ _ front back => exact front.trans (fun _ _ _ => .trans _ _ _) back

end Chronos.Yaml
