import TermAlgebra.Exchange.Write
import TermAlgebra.Proofs.ExactWeight
import TermAlgebra.Proofs.LabelEquality
import TermAlgebra.Proofs.Replacement
import TermAlgebra.Proofs.SubstitutionComposition
/-!
Where a variable came from does not show. Every operation gives, but for origins, what the same
operation gives on labels alone: forgetting origins before it or after it comes to the same
(`labels_apply`, `labels_compose`, …). Two inputs that agree in their labels are therefore answered
alike, be their variables from one pool, from several, from pools long closed or from none.
-/
namespace TermAlgebra

variable {ν μ : Type}

namespace Term

theorem replace?_map (g : ν → μ) (t : Term ν) (p : Position) (r : Term ν) :
    (t.map g).replace? p (r.map g) = (t.replace? p r).map (map g) := by
  induction p generalizing t with
  | nil => simp [replace?_nil]
  | cons i p ih =>
    cases t with
    | const c => rfl
    | var v => rfl
    | app f args =>
      rw [map_app, replace?_app_cons, replace?_app_cons, List.getElem?_map]
      cases args[i]? with
      | none => rfl
      | some u => cases done : u.replace? p r <;> simp [ih, done, map_app, List.map_set]

end Term

/-- Equal elements stay equal and others stay apart, so the same ones are left out. -/
private theorem eraseDups_map [BEq ν] [BEq μ] {g : ν → μ}
    (keeps : ∀ v w, (g v == g w) = (v == w)) (vs : List ν) :
    (vs.map g).eraseDups = vs.eraseDups.map g := by
  match vs with
  | [] => rfl
  | v :: rest =>
    have later := eraseDups_map keeps (rest.filter fun w => !w == v)
    simp only [List.map_cons, List.eraseDups_cons, List.filter_map, Function.comp_def, keeps, later]
termination_by vs.length
decreasing_by exact Nat.lt_succ_of_le (List.length_filter_le _ _)

theorem Term.variableSet_map [BEq ν] [BEq μ] {g : ν → μ}
    (keeps : ∀ v w, (g v == g w) = (v == w)) (t : Term ν) :
    (t.map g).variableSet = t.variableSet.map g := by
  rw [variableSet, variableSet, occurrences_map, eraseDups_map keeps]

theorem Weight.ofTerm_map (w : Weight) (g : ν → μ) (t : Term ν) :
    w.ofTerm (t.map g) = w.ofTerm t :=
  w.ofTerm_congr (w.total_map g t)

namespace Term

theorem subtermAt_labels (t : Term Variable) (p : Position) :
    t.labels.subtermAt p = (t.subtermAt p).map labels := by
  rw [subtermAt, subtermAt, labels, subterm?_map]
  cases t.subterm? p <;> rfl

theorem replaceAt_labels (t : Term Variable) (p : Position) (r : Term Variable) :
    t.labels.replaceAt p r.labels = (t.replaceAt p r).map labels := by
  rw [replaceAt, replaceAt, labels, labels, replace?_map]
  cases t.replace? p r <;> rfl

theorem subterms_labels (t : Term Variable) :
    t.labels.subterms = t.subterms.map fun item => (item.1, item.2.labels) :=
  subterms_map Variable.label t

theorem occurrences_labels (t : Term Variable) :
    t.labels.occurrences = t.occurrences.map Variable.label :=
  occurrences_map Variable.label t

theorem variableSet_labels (t : Term Variable) :
    t.labels.variableSet = t.variableSet.map Variable.label :=
  variableSet_map (g := Variable.label) (fun _ _ => rfl) t

theorem size_labels (t : Term Variable) : t.labels.size = t.size := size_map Variable.label t

theorem depth_labels (t : Term Variable) : t.labels.depth = t.depth := depth_map Variable.label t

end Term

theorem Symbol.toTerm_labels (x : Symbol Variable) :
    x.labels.toTerm = x.toTerm.map Term.labels := by
  cases x <;> rfl

theorem Symbol.occurrences_labels (x : Symbol Variable) :
    x.labels.occurrences = x.occurrences.map (List.map Variable.label) := by
  cases x <;> simp [Symbol.labels, Symbol.map, Symbol.occurrences, Except.map]

theorem Weight.ofTerm_labels (w : Weight) (t : Term Variable) : w.ofTerm t.labels = w.ofTerm t :=
  w.ofTerm_map Variable.label t

private theorem setEntry_labels (v : Variable) (t : Term Variable)
    (es : List (Variable × Term Variable)) :
    Table.setEntry v.label t.labels (es.map fun b => (b.1.label, b.2.labels)) =
      (Table.setEntry v t es).map fun b => (b.1.label, b.2.labels) := by
  induction es with
  | nil => rfl
  | cons b es ih =>
    by_cases same : b.1.label == v.label
    · simp [Table.setEntry, Variable.beq_def, same]
    · simp [Table.setEntry, Variable.beq_def, same, ih]

namespace Substitution

theorem labels_ofList (pairs : List (Variable × Term Variable)) :
    (ofList pairs).labels = ofList (pairs.map fun b => (b.1.label, b.2.labels)) := by
  suffices ∀ t : Table Variable (Term Variable),
      labels ⟨pairs.foldl (fun t b => t.insert b.1 b.2) t⟩ =
        ⟨(pairs.map fun b => (b.1.label, b.2.labels)).foldl (fun t b => t.insert b.1 b.2)
          (labels ⟨t⟩).bindings⟩ from this .empty
  induction pairs with
  | nil => exact fun t => rfl
  | cons b pairs ih =>
    intro t
    have inserted : (labels ⟨t.insert b.1 b.2⟩).bindings =
        (labels ⟨t⟩).bindings.insert b.1.label b.2.labels :=
      Table.ext (setEntry_labels b.1 b.2 t.entries).symm
    rw [List.foldl_cons, ih, inserted, List.map_cons, List.foldl_cons]

variable (s outer inner : Substitution Variable)

theorem labels_contains (v : Variable) : s.labels.contains v.label = s.contains v := by
  simp [contains, Table.contains, labels, Function.comp_def, Variable.beq_def]

theorem labels_domain : s.labels.domain = s.domain.map Variable.label := by
  simp [domain, Table.keys, labels, Function.comp_def]

theorem labels_image (v : Variable) : s.labels.image v.label = (s.image v).labels := by
  rw [image, labels_get?, image]
  cases s.get? v <;> rfl

theorem labels_apply (t : Term Variable) : (s.apply t).labels = s.labels.apply t.labels := by
  rw [apply_eq_bind, apply_eq_bind, Term.labels, Term.labels, Term.bind_map, Term.map,
    Term.bind_bind]
  congr 1
  funext v
  exact (s.labels_image v).symm

theorem labels_applySymbol (x : Symbol Variable) :
    s.labels.applySymbol x.labels = (s.applySymbol x).map Term.labels := by
  rw [applySymbol, applySymbol, Symbol.toTerm_labels]
  cases x.toTerm with
  | error e => rfl
  | ok t => exact congrArg Except.ok (s.labels_apply t).symm

theorem labels_compose : (outer.compose inner).labels = outer.labels.compose inner.labels := by
  apply Substitution.ext
  apply Table.ext
  show (outer.compose inner).labels.toList = (outer.labels.compose inner.labels).toList
  simp only [toList_labels, toList_compose, List.map_append, List.map_map, List.filter_map,
    Function.comp_def, labels_apply, labels_contains]

end Substitution

/-- Two variables that are compared, hashed and written alike. -/
structure Variable.Alike (v v' : Variable) : Prop where
  equal : ∀ w w', w.label = w'.label → (v == w) = (v' == w')
  ordered : ∀ w w', w.label = w'.label → compare v w = compare v' w'
  hashed : ∀ {σ : Type} (h : Hasher σ) (state : σ), v.hashInto h state = v'.hashInto h state
  text : v.label.text = v'.label.text
  written : v.label.toJson.text = v'.label.toJson.text

/-- Two symbols of which the same can be made, and that are written alike in the form of their own
kind. -/
structure Symbol.Alike (x x' : Symbol Variable) : Prop where
  equal : ∀ y y', y.labels = y'.labels → (x == y) = (x' == y')
  toTerm : x.toTerm.map Term.labels = x'.toTerm.map Term.labels
  occurrences : x.occurrences.map (List.map Variable.label) =
    x'.occurrences.map (List.map Variable.label)
  text : x.labels.text = x'.labels.text
  written : x.labels.toJson.text = x'.labels.toJson.text

/-- Two terms that have the same parts, measures and texts and fail in the same ways. -/
structure Term.Alike (t t' : Term Variable) : Prop where
  equal : ∀ u u', u.labels = u'.labels → (t == u) = (t' == u')
  subtermAt : ∀ p, (t.subtermAt p).map labels = (t'.subtermAt p).map labels
  subterms : (t.subterms.map fun item => (item.1, item.2.labels)) =
    t'.subterms.map fun item => (item.1, item.2.labels)
  replaceAt : ∀ p r r', r.labels = r'.labels →
    (t.replaceAt p r).map labels = (t'.replaceAt p r').map labels
  occurrences : t.occurrences.map Variable.label = t'.occurrences.map Variable.label
  variableSet : t.variableSet.map Variable.label = t'.variableSet.map Variable.label
  size : t.size = t'.size
  depth : t.depth = t'.depth
  weight : ∀ w : Weight, w.ofTerm t = w.ofTerm t'
  text : t.labels.text = t'.labels.text
  written : t.labels.toJson.text = t'.labels.toJson.text

/-- Two substitutions that hold the same bindings in the same order and act in the same way on all
that they can be applied to. -/
structure Substitution.Alike (s s' : Substitution Variable) : Prop where
  equal : ∀ r r', r.labels = r'.labels → (s == r) = (s' == r')
  get? : ∀ v v', v.label = v'.label → (s.get? v).map Term.labels = (s'.get? v').map Term.labels
  contains : ∀ v v', v.label = v'.label → s.contains v = s'.contains v'
  domain : s.domain.map Variable.label = s'.domain.map Variable.label
  image : ∀ v v', v.label = v'.label → (s.image v).labels = (s'.image v').labels
  apply : ∀ t t', t.labels = t'.labels → (s.apply t).labels = (s'.apply t').labels
  applyToArgs : ∀ a a', a.toTerm.labels = a'.toTerm.labels →
    (s.applyToArgs a).toTerm.labels = (s'.applyToArgs a').toTerm.labels
  applySymbol : ∀ x x', x.labels = x'.labels →
    (s.applySymbol x).map Term.labels = (s'.applySymbol x').map Term.labels
  compose : ∀ r r', r.labels = r'.labels → (s.compose r).labels = (s'.compose r').labels
  text : s.labels.text = s'.labels.text
  written : s.labels.toJson.text = s'.labels.toJson.text

theorem Variable.alike {v v' : Variable} (same : v.label = v'.label) : v.Alike v' := by
  constructor
  case equal => exact fun w w' sameToo => by rw [beq_def, beq_def, same, sameToo]
  case ordered =>
    intro w w' sameToo
    show compare v.label w.label = compare v'.label w'.label
    rw [same, sameToo]
  case hashed => exact fun h state => by rw [hashInto, hashInto, same]
  case text => rw [same]
  case written => rw [same]

theorem Symbol.alike {x x' : Symbol Variable} (same : x.labels = x'.labels) : x.Alike x' := by
  constructor
  case equal =>
    intro y y' sameToo
    show (x.labels == y.labels) = (x'.labels == y'.labels)
    rw [same, sameToo]
  case toTerm => rw [← toTerm_labels, same, toTerm_labels]
  case occurrences => rw [← occurrences_labels, same, occurrences_labels]
  case text => rw [same]
  case written => rw [same]

theorem Term.alike {t t' : Term Variable} (same : t.labels = t'.labels) : t.Alike t' := by
  constructor
  case equal => exact fun u u' sameToo => by rw [Bool.eq_iff_iff, beq_iff, beq_iff, same, sameToo]
  case subtermAt => exact fun p => by rw [← subtermAt_labels, same, subtermAt_labels]
  case subterms => rw [← subterms_labels, same, subterms_labels]
  case replaceAt =>
    exact fun p r r' sameToo => by rw [← replaceAt_labels, same, sameToo, replaceAt_labels]
  case occurrences => rw [← occurrences_labels, same, occurrences_labels]
  case variableSet => rw [← variableSet_labels, same, variableSet_labels]
  case size => rw [← size_labels, same, size_labels]
  case depth => rw [← depth_labels, same, depth_labels]
  case weight => exact fun w => by rw [← w.ofTerm_labels, same, w.ofTerm_labels]
  case text => rw [same]
  case written => rw [same]

theorem Substitution.alike {s s' : Substitution Variable} (same : s.labels = s'.labels) :
    s.Alike s' := by
  constructor
  case equal => exact fun r r' sameToo => by rw [Bool.eq_iff_iff, beq_iff, beq_iff, same, sameToo]
  case get? => exact fun v v' sameToo => by rw [← labels_get?, same, sameToo, labels_get?]
  case contains =>
    exact fun v v' sameToo => by rw [← labels_contains, same, sameToo, labels_contains]
  case domain => rw [← labels_domain, same, labels_domain]
  case image => exact fun v v' sameToo => by rw [← labels_image, same, sameToo, labels_image]
  case apply => exact fun t t' sameToo => by rw [labels_apply, same, sameToo, ← labels_apply]
  case applyToArgs =>
    intro a a' sameToo
    rw [toTerm_applyToArgs, toTerm_applyToArgs, labels_apply, same, sameToo, ← labels_apply]
  case applySymbol =>
    exact fun x x' sameToo => by rw [← labels_applySymbol, same, sameToo, labels_applySymbol]
  case compose =>
    exact fun r r' sameToo => by rw [labels_compose, same, sameToo, ← labels_compose]
  case text => rw [same]
  case written => rw [same]

/-- Nothing that can be asked of variables, symbols, terms and substitutions tells instances with
equal labels apart, whichever pool issued them and whether it is open or not. -/
theorem origins_do_not_show :
    (∀ v v' : Variable, v.label = v'.label → v.Alike v') ∧
    (∀ x x' : Symbol Variable, x.labels = x'.labels → x.Alike x') ∧
    (∀ t t' : Term Variable, t.labels = t'.labels → t.Alike t') ∧
    (∀ a a' : Application Variable, a.toTerm.labels = a'.toTerm.labels →
      a.occurrences.map Variable.label = a'.occurrences.map Variable.label ∧
      a.toTerm.labels.text = a'.toTerm.labels.text ∧
      a.toTerm.labels.bodyToJson.text = a'.toTerm.labels.bodyToJson.text) ∧
    (∀ pairs pairs' : List (Variable × Term Variable),
      (pairs.map fun b => (b.1.label, b.2.labels)) = (pairs'.map fun b => (b.1.label, b.2.labels)) →
      (Substitution.ofList pairs).labels = (Substitution.ofList pairs').labels) ∧
    ∀ s s' : Substitution Variable, s.labels = s'.labels → s.Alike s' := by
  refine ⟨fun v v' => Variable.alike, fun x x' => Symbol.alike, fun t t' => Term.alike, ?_, ?_,
    fun s s' => Substitution.alike⟩
  · intro a a' same
    refine ⟨?_, by rw [same], by rw [same]⟩
    rw [← Term.occurrences_toTerm, ← Term.occurrences_labels, same, Term.occurrences_labels,
      Term.occurrences_toTerm]
  · intro pairs pairs' same
    rw [Substitution.labels_ofList, same, Substitution.labels_ofList]

/-- Equal variables of two pools, in a term and as keys, against others made outside all pools. -/
theorem origins_do_not_show_mixed :
    let x (origin : Origin) : Variable := ⟨⟨"x", some 3⟩, origin⟩
    let t (v w : Variable) : Application Variable := ⟨⟨"f", 2, by decide⟩, [.var v, .var w]⟩
    let pairs (v w : Variable) := [(v, (t v w).toTerm), (w, .const ⟨"a"⟩)]
    let v := x (.issued 0 5)
    let w := x (.issued 1 0)
    let v' := x (.free 0)
    let w' := x (.free 1)
    v.label = v'.label ∧ v.Alike v' ∧ (Symbol.var v).labels = (Symbol.var v').labels ∧
      (Symbol.var v).Alike (.var v') ∧ (t v w).toTerm.labels = (t v' w').toTerm.labels ∧
      (t v w).toTerm.Alike (t v' w').toTerm ∧
      (t v w).occurrences.map Variable.label = (t v' w').occurrences.map Variable.label ∧
      (pairs v w).map (fun b => (b.1.label, b.2.labels)) =
        (pairs v' w').map (fun b => (b.1.label, b.2.labels)) ∧
      (Substitution.ofList (pairs v w)).Alike (.ofList (pairs v' w')) := by
  intro x t pairs v w v' w'
  obtain ⟨instances, symbols, terms, applications, collections, substitutions⟩ :=
    origins_do_not_show
  have same : (t v w).toTerm.labels = (t v' w').toTerm.labels := rfl
  have collected := collections (pairs v w) (pairs v' w') rfl
  exact ⟨rfl, instances v v' rfl, rfl, symbols _ _ rfl, same, terms _ _ same,
    (applications _ _ same).1, rfl, substitutions _ _ collected⟩

end TermAlgebra
