import TermAlgebra.Exchange.Text
import TermAlgebra.Pool.Registry
import TermAlgebra.Proofs.JsonText
import TermAlgebra.Proofs.LabelEquality
import TermAlgebra.Proofs.Reading
/-!
Every value survives being written as a text and read again. Written values are plain, so their text
is read as the very JSON that was written, and the readers give back the labels from which it came.
The instances made for these labels are new and in no pool. A restored value is therefore equal to
the old one, and it differs from it only in where its variables came from.
-/
namespace TermAlgebra

namespace Json

theorem plain_natural (n : Nat) : (natural n).Plain := .integer n

theorem plain_field {name : String} {j : Json} (plain : j.Plain) : (object [(name, j)]).Plain :=
  .object (List.forall_mem_singleton.2 plain) (List.pairwise_singleton _ _)

theorem plain_fields {first second : String} {i j : Json} (apart : first ≠ second)
    (plainFirst : i.Plain) (plainSecond : j.Plain) :
    (object [(first, i), (second, j)]).Plain :=
  .object (List.forall_mem_cons.2 ⟨plainFirst, List.forall_mem_singleton.2 plainSecond⟩)
    (List.pairwise_pair.2 apart)

end Json

theorem Constant.plain_toJson (c : Constant) : c.toJson.Plain := Json.plain_field (.string c.name)

theorem FunctionSymbol.plain_toJson (f : FunctionSymbol) : f.toJson.Plain :=
  Json.plain_fields (by decide) (.string f.name) (Json.plain_natural f.arity.toNat)

theorem Label.plain_toJson (l : Label) : l.toJson.Plain := by
  obtain ⟨name, index⟩ := l
  cases index with
  | none => exact Json.plain_field (.string name)
  | some i => exact Json.plain_fields (by decide) (.string name) (Json.plain_natural i.toNat)

theorem Pool.Config.plain_toJson (c : Pool.Config) : c.toJson.Plain :=
  Json.plain_fields (by decide) (Json.plain_natural c.firstIndex.toNat) (.string c.anonymousName)

theorem Json.plain_application (f : FunctionSymbol) {args : List (Term Label)}
    (each : ∀ t ∈ args, t.toJson.Plain) : (Json.application f (Term.toJsonAll args)).Plain := by
  rw [Term.toJsonAll_eq_map]
  exact Json.plain_fields (by decide) f.plain_toJson (.array (List.forall_mem_map.2 each))

theorem Term.plain_toJson (t : Term Label) : t.toJson.Plain := by
  induction t with
  | const c => exact Json.plain_field c.plain_toJson
  | var l => exact Json.plain_field l.plain_toJson
  | app f args ih => exact Json.plain_field (Json.plain_application f ih)

theorem Term.plain_bodyToJson (t : Term Label) : t.bodyToJson.Plain := by
  cases t with
  | const c => exact c.plain_toJson
  | var l => exact l.plain_toJson
  | app f args => exact Json.plain_application f fun t _ => t.plain_toJson

theorem Position.plain_toJson (p : Position) : p.toJson.Plain :=
  .array (List.forall_mem_map.2 fun i _ => Json.plain_natural i)

theorem Json.plain_ofPairs (pairs : List (Label × Term Label)) : (Json.ofPairs pairs).Plain :=
  .array (List.forall_mem_map.2 fun b _ => .array (List.forall_mem_cons.2
    ⟨b.1.plain_toJson, List.forall_mem_singleton.2 b.2.plain_toJson⟩))

theorem Substitution.plain_toJson (s : Substitution Label) : s.toJson.Plain :=
  Json.plain_ofPairs s.toList

theorem Read.ofText_text {α : Type} (read : Json → Read α) {j : Json} (plain : j.Plain) :
    Read.ofText read j.text = read j := by
  rw [Read.ofText, Json.parse?_text plain, Option.elim_some]

namespace Term

private theorem labels_instancesAll {ts : List (Term Label)}
    (each : ∀ t ∈ ts, ∀ serial, (t.instances serial).1.labels = t) (serial : Nat) :
    (instancesAll serial ts).1.map labels = ts := by
  induction ts generalizing serial with
  | nil => rfl
  | cons t ts ih =>
    have later := ih (fun u member => each u (List.mem_cons_of_mem t member)) (instances serial t).2
    rw [instancesAll, List.map_cons, each t List.mem_cons_self, later]

theorem labels_instances (t : Term Label) (serial : Nat) : (t.instances serial).1.labels = t := by
  induction t generalizing serial with
  | const c => rfl
  | var l => rfl
  | app f args ih => rw [instances, labels_app, labels_instancesAll ih]

private theorem unissued_instancesAll {ts : List (Term Label)}
    (each : ∀ t ∈ ts, ∀ serial, ∀ v ∈ (t.instances serial).1.occurrences, v.origin.pool? = none)
    (serial : Nat) :
    ∀ u ∈ (instancesAll serial ts).1, ∀ v ∈ u.occurrences, v.origin.pool? = none := by
  induction ts generalizing serial with
  | nil => exact fun u member => absurd member List.not_mem_nil
  | cons t ts ih =>
    rw [instancesAll, List.forall_mem_cons]
    exact ⟨each t List.mem_cons_self serial,
      ih (fun u member => each u (List.mem_cons_of_mem t member)) _⟩

theorem unissued_instances (t : Term Label) (serial : Nat) :
    ∀ v ∈ (t.instances serial).1.occurrences, v.origin.pool? = none := by
  induction t generalizing serial with
  | const c =>
    rw [instances, occurrences_const]
    exact fun v occurs => absurd occurs List.not_mem_nil
  | var l =>
    rw [instances, occurrences_var]
    exact List.forall_mem_singleton.2 rfl
  | app f args ih =>
    rw [instances, occurrences_app]
    intro v occurs
    obtain ⟨u, member, occurs⟩ := List.mem_flatMap.1 occurs
    exact unissued_instancesAll ih serial u member v occurs

end Term

namespace Substitution

/-- The instances in a substitution: of each binding the variable, and those in its term. -/
def instancesIn (s : Substitution Variable) : List Variable :=
  s.toList.flatMap fun b => b.1 :: b.2.occurrences

theorem labels_instances (serial : Nat) (pairs : List (Label × Term Label)) :
    (instances serial pairs).map (fun b => (b.1.label, b.2.labels)) = pairs := by
  induction pairs generalizing serial with
  | nil => rfl
  | cons b pairs ih => rw [instances, List.map_cons, Term.labels_instances, ih]

theorem unissued_instances (serial : Nat) (pairs : List (Label × Term Label)) :
    ∀ b ∈ instances serial pairs, ∀ v ∈ b.1 :: b.2.occurrences, v.origin.pool? = none := by
  induction pairs generalizing serial with
  | nil => exact fun b member => absurd member List.not_mem_nil
  | cons b pairs ih =>
    rw [instances, List.forall_mem_cons, List.forall_mem_cons]
    exact ⟨⟨rfl, b.2.unissued_instances (serial + 1)⟩, ih _⟩

/-- New instances keep bindings apart, so that none is lost in collecting them. -/
theorem toList_ofList_instances (serial : Nat) (s : Substitution Label) :
    (ofList (instances serial s.toList)).toList = instances serial s.toList := by
  have apart := s.bindings.distinct
  change s.toList.Pairwise _ at apart
  rw [← labels_instances serial s.toList, List.pairwise_map] at apart
  exact Table.entries_ofList apart

theorem labels_ofList_instances (serial : Nat) (s : Substitution Label) :
    (ofList (instances serial s.toList)).labels = s := by
  refine Substitution.ext (Table.ext ?_)
  show (ofList (instances serial s.toList)).toList.map _ = s.toList
  rw [toList_ofList_instances, labels_instances]

end Substitution

/-- Only variables that were issued by a pool can be bound. -/
theorem Registry.not_isBound {v : Variable} (unissued : v.origin.pool? = none) (pools : Registry) :
    pools.isBound v = false := by
  rw [isBound, poolOf?, unissued]
  rfl

/-- What is left of a value that was written and read again: it is equal, label by label and in the
same order. None of its instances belongs to a pool, and it is written as it was. -/
structure Restored {α β : Type} [BEq α] (labels : α → β) (toJson : β → Json)
    (instancesIn : α → List Variable) (old new : α) : Prop where
  equal : (new == old) = true
  sameLabels : labels new = labels old
  unbound : ∀ v ∈ instancesIn new, ∀ pools : Registry, pools.isBound v = false
  text : (toJson (labels new)).text = (toJson (labels old)).text

theorem restored_of_labels {α β : Type} [BEq α] {labels : α → β} {instancesIn : α → List Variable}
    {old new : α} (beq_of_labels : ∀ {a b : α}, labels a = labels b → (a == b) = true)
    (toJson : β → Json) (same : labels new = labels old)
    (unissued : ∀ v ∈ instancesIn new, v.origin.pool? = none) :
    Restored labels toJson instancesIn old new where
  equal := beq_of_labels same
  sameLabels := same
  unbound v member := Registry.not_isBound (unissued v member)
  text := by rw [same]

theorem Variable.restored (v : Variable) (serial : Nat) :
    Restored Variable.label Label.toJson (fun w => [w]) v ⟨v.label, .free serial⟩ :=
  restored_of_labels Variable.beq_iff.2 Label.toJson rfl (List.forall_mem_singleton.2 rfl)

theorem Term.restored (toJson : Term Label → Json) (t : Term Variable) (serial : Nat) :
    Restored Term.labels toJson Term.occurrences t (t.labels.instances serial).1 :=
  restored_of_labels Term.beq_iff.2 toJson (labels_instances t.labels serial)
    (unissued_instances t.labels serial)

theorem Substitution.restored (s : Substitution Variable) (serial : Nat) :
    Restored Substitution.labels Substitution.toJson Substitution.instancesIn s
      (.ofList (instances serial s.labels.toList)) := by
  refine restored_of_labels Substitution.beq_of_labels Substitution.toJson
    (labels_ofList_instances serial s.labels) fun v member => ?_
  rw [instancesIn, toList_ofList_instances] at member
  obtain ⟨b, bound, member⟩ := List.mem_flatMap.1 member
  exact unissued_instances serial s.labels.toList b bound v member

theorem Variable.ofText_text (v : Variable) (serial : Nat) :
    Variable.ofText serial v.label.toJson.text = .ok ⟨v.label, .free serial⟩ := by
  rw [Variable.ofText, Read.ofText_text _ v.label.plain_toJson, Read.label_toJson]
  rfl

theorem Term.ofText_text {t : Term Variable} (wellFormed : t.WellFormed) (serial : Nat) :
    Term.ofText serial t.labels.toJson.text = .ok (t.labels.instances serial).1 := by
  rw [Term.ofText, Read.ofText_text _ t.labels.plain_toJson,
    Read.term_toJson (wellFormed_labels.2 wellFormed)]
  rfl

theorem Application.ofText_text {a : Application Variable} (wellFormed : a.toTerm.WellFormed)
    (serial : Nat) : Application.ofText serial a.toTerm.labels.bodyToJson.text =
      .ok (a.toTerm.labels.instances serial).1 := by
  have readable : a.toTerm.labels.WellFormed := Term.wellFormed_labels.2 wellFormed
  rw [Application.ofText, Read.ofText_text _ a.toTerm.labels.plain_bodyToJson]
  rw [Application.toTerm, Term.labels_app] at readable ⊢
  rw [Read.application_bodyToJson readable]
  rfl

theorem Substitution.ofText_text {s : Substitution Variable}
    (wellFormed : ∀ b ∈ s.toList, b.2.WellFormed) (serial : Nat) :
    Substitution.ofText serial s.labels.toJson.text =
      .ok (.ofList (instances serial s.labels.toList)) := by
  rw [Substitution.ofText, Read.ofText_text _ s.labels.plain_toJson,
    Read.substitution_toJson (wellFormed_labels wellFormed)]
  rfl

/-- Reading the text of a value gives the value back. Values without variables are the same again.
Of the others every variable has its name and its index or lack of one, but no pool; bindings keep
their order. -/
theorem reading_inverts_writing :
    (∀ c : Constant, Read.ofText Read.constant c.toJson.text = .ok c) ∧
    (∀ f : FunctionSymbol, Read.ofText Read.functionSymbol f.toJson.text = .ok f) ∧
    (∀ (v : Variable) (serial : Nat), ∃ w, Variable.ofText serial v.label.toJson.text = .ok w ∧
      Restored Variable.label Label.toJson (fun w => [w]) v w) ∧
    (∀ t : Term Variable, t.WellFormed → ∀ serial, ∃ u,
      Term.ofText serial t.labels.toJson.text = .ok u ∧
      Restored Term.labels Term.toJson Term.occurrences t u) ∧
    (∀ a : Application Variable, a.toTerm.WellFormed → ∀ serial, ∃ b : Application Variable,
      Application.ofText serial a.toTerm.labels.bodyToJson.text = .ok b.toTerm ∧
      Restored Term.labels Term.bodyToJson Term.occurrences a.toTerm b.toTerm) ∧
    (∀ p : Position, (∀ i ∈ p, i < UInt64.size) →
      Read.ofText Read.position p.toJson.text = .ok p) ∧
    (∀ s : Substitution Variable, (∀ b ∈ s.toList, b.2.WellFormed) → ∀ serial, ∃ r,
      Substitution.ofText serial s.labels.toJson.text = .ok r ∧
      Restored Substitution.labels Substitution.toJson Substitution.instancesIn s r) ∧
    (∀ c : Pool.Config, Read.ofText Read.poolConfig c.toJson.text = .ok c) := by
  refine ⟨fun c => ?_, fun f => ?_, fun v serial => ?_, fun t wellFormed serial => ?_,
    fun a wellFormed serial => ?_, fun p small => ?_, fun s wellFormed serial => ?_, fun c => ?_⟩
  · rw [Read.ofText_text _ c.plain_toJson, Read.constant_toJson]
  · rw [Read.ofText_text _ f.plain_toJson, Read.functionSymbol_toJson]
  · exact ⟨_, Variable.ofText_text v serial, v.restored serial⟩
  · exact ⟨_, Term.ofText_text wellFormed serial, t.restored Term.toJson serial⟩
  · refine ⟨⟨a.symbol, (Term.instancesAll serial (a.args.map Term.labels)).1⟩, ?_, ?_⟩
    · rw [Application.ofText_text wellFormed, Application.toTerm, Term.labels_app]
      rfl
    · have restored := a.toTerm.restored Term.bodyToJson serial
      rw [Application.toTerm, Term.labels_app] at restored
      exact restored
  · rw [Read.ofText_text _ p.plain_toJson, Read.position_toJson small]
  · exact ⟨_, Substitution.ofText_text wellFormed serial, s.restored serial⟩
  · rw [Read.ofText_text _ c.plain_toJson, Read.poolConfig_toJson]

/-- An application with characters to escape and an index from a pool. -/
def quotedPair : Application Variable :=
  ⟨⟨"f", 2, by decide⟩, [.var ⟨⟨"x\"\n", some 7⟩, .issued 0 3⟩,
    .app ⟨"\\é", 1, by decide⟩ [.const ⟨"c"⟩]]⟩

/-- A variable of a pool bound to a term in which it occurs. -/
def quotedBinding : Substitution Variable :=
  .ofList [(⟨⟨"x\"\n", some 7⟩, .issued 0 3⟩, quotedPair.toTerm)]

theorem reading_inverts_writing_quoted :
    quotedPair.toTerm.WellFormed ∧
    (∃ u, Term.ofText 0 quotedPair.toTerm.labels.toJson.text = .ok u ∧
      (u == quotedPair.toTerm) = true) ∧
    (∃ b : Application Variable,
      Application.ofText 0 quotedPair.toTerm.labels.bodyToJson.text = .ok b.toTerm ∧
      ∀ v ∈ b.toTerm.occurrences, ∀ pools : Registry, pools.isBound v = false) ∧
    (∀ i ∈ [0, 18446744073709551615], i < UInt64.size) ∧
    Read.ofText Read.position "[0,18446744073709551615]" = .ok [0, 18446744073709551615] ∧
    (∀ b ∈ quotedBinding.toList, b.2.WellFormed) ∧
    ∃ r, Substitution.ofText 0 quotedBinding.labels.toJson.text = .ok r ∧
      r.labels = quotedBinding.labels := by
  have wellFormed : quotedPair.toTerm.WellFormed := ⟨rfl, trivial, ⟨rfl, trivial, trivial⟩, trivial⟩
  have small : ∀ i ∈ [0, 18446744073709551615], i < UInt64.size := by decide
  have written : (Position.toJson [0, 18446744073709551615]).text = "[0,18446744073709551615]" := by
    decide
  have bound : ∀ b ∈ quotedBinding.toList, b.2.WellFormed := List.forall_mem_singleton.2 wellFormed
  obtain ⟨-, -, -, terms, applications, positions, substitutions, -⟩ := reading_inverts_writing
  obtain ⟨u, readTerm, restoredTerm⟩ := terms quotedPair.toTerm wellFormed 0
  obtain ⟨b, readApplication, restoredApplication⟩ := applications quotedPair wellFormed 0
  obtain ⟨r, readSubstitution, restoredSubstitution⟩ := substitutions quotedBinding bound 0
  exact ⟨wellFormed, ⟨u, readTerm, restoredTerm.equal⟩,
    ⟨b, readApplication, restoredApplication.unbound⟩, small, written ▸ positions _ small, bound,
    ⟨r, readSubstitution, restoredSubstitution.sameLabels⟩⟩

end TermAlgebra
