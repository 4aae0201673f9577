import TermAlgebra.Term.Occurrence
/-!
Replacing the variables of a term, against the ways of going through it. Replacements in turn are
one (`bind_bind`), and one depends only on the variables that occur (`bind_congr`), which the scan
reports from left to right (`occurrences_app`). Putting variables for variables keeps size, depth
and positions, and what stands at each of them but for the variables (`subterms_map`).
-/
namespace TermAlgebra.Term

variable {ν μ ρ : Type}

theorem bindAll_eq_map (g : ν → Term μ) (ts : List (Term ν)) : bindAll g ts = ts.map (bind g) := by
  induction ts with
  | nil => rfl
  | cons t rest ih => rw [bindAll, ih, List.map_cons]

theorem bind_app (g : ν → Term μ) (f : FunctionSymbol) (args : List (Term ν)) :
    (app f args).bind g = app f (args.map (bind g)) := by
  rw [bind, bindAll_eq_map]

/-- Replacing every variable by itself changes nothing. -/
@[simp] theorem bind_var (t : Term ν) : t.bind .var = t := by
  induction t with
  | const c => rfl
  | var v => rfl
  | app f args ih =>
    have same : args.map (bind .var) = args := by
      rw [List.map_congr_left ih]
      exact List.map_id' args
    rw [bind, bindAll_eq_map, same]

/-- Two replacements in turn are one, in which the second acts on the images of the first. -/
theorem bind_bind (g : ν → Term μ) (h : μ → Term ρ) (t : Term ν) :
    (t.bind g).bind h = t.bind fun v => (g v).bind h := by
  induction t with
  | const c => rfl
  | var v => rfl
  | app f args ih =>
    have inTurn : (args.map (bind g)).map (bind h) = args.map (bind fun v => (g v).bind h) := by
      rw [List.map_map]
      exact List.map_congr_left ih
    simp only [bind, bindAll_eq_map]
    rw [inTurn]

/-- What a scan reports of the frame before all others, once this is known of each of its terms. -/
private theorem Scan.toList_front {args : List (Term ν)}
    (each : ∀ t ∈ args, ∀ ts outer,
      toList ⟨.terms (t :: ts) :: outer⟩ = t.occurrences ++ toList ⟨.terms ts :: outer⟩)
    (outer : List (Frame ν)) :
    toList ⟨.terms args :: outer⟩ = args.flatMap occurrences ++ toList ⟨outer⟩ := by
  induction args with
  | nil => rw [toList_terms_nil, List.flatMap_nil, List.nil_append]
  | cons t rest ih =>
    rw [each t List.mem_cons_self, ih fun u member => each u (List.mem_cons_of_mem t member),
      List.flatMap_cons, List.append_assoc]

theorem Scan.toList_cons (t : Term ν) (ts : List (Term ν)) (outer : List (Frame ν)) :
    toList ⟨.terms (t :: ts) :: outer⟩ = t.occurrences ++ toList ⟨.terms ts :: outer⟩ := by
  induction t generalizing ts outer with
  | const c => simp [occurrences, start]
  | var v => simp [occurrences, start]
  | app f args ih =>
    have alone : occurrences (.app f args) = args.flatMap occurrences := by
      rw [occurrences, start, toList_terms_app, toList_front ih]
      simp
    rw [alone, toList_terms_app, toList_front ih]

@[simp] theorem occurrences_const (c : Constant) : occurrences (.const c : Term ν) = [] := by
  simp [occurrences, Scan.start]

@[simp] theorem occurrences_var (v : ν) : occurrences (.var v) = [v] := by
  simp [occurrences, Scan.start]

theorem occurrences_app (f : FunctionSymbol) (args : List (Term ν)) :
    occurrences (.app f args) = args.flatMap occurrences := by
  rw [occurrences, Scan.start, Scan.toList_terms_app,
    Scan.toList_front fun t _ => Scan.toList_cons t]
  simp

theorem occurrences_toTerm (a : Application ν) : a.toTerm.occurrences = a.occurrences := by
  rw [Application.toTerm, occurrences_app, Application.occurrences, Scan.start,
    Scan.toList_front fun t _ => Scan.toList_cons t]
  simp

/-- Two replacements come to the same if and only if they do so for every variable that occurs. -/
theorem bind_eq_bind_iff {g h : ν → Term μ} {t : Term ν} :
    t.bind g = t.bind h ↔ ∀ v ∈ t.occurrences, g v = h v := by
  induction t with
  | const c => simp [bind]
  | var v => simp [bind]
  | app f args ih =>
    rw [bind_app, bind_app, occurrences_app, List.forall_mem_flatMap, app.injEq, List.map_inj_left]
    exact (and_iff_right rfl).trans (forall₂_congr ih)

theorem bind_congr {g h : ν → Term μ} {t : Term ν} (agree : ∀ v ∈ t.occurrences, g v = h v) :
    t.bind g = t.bind h :=
  bind_eq_bind_iff.2 agree

/-- The variables of the images, one occurrence after the other. -/
theorem occurrences_bind (g : ν → Term μ) (t : Term ν) :
    (t.bind g).occurrences = t.occurrences.flatMap fun v => (g v).occurrences := by
  induction t with
  | const c => rw [bind, occurrences_const, occurrences_const, List.flatMap_nil]
  | var v => rw [bind, occurrences_var, List.flatMap_singleton]
  | app f args ih =>
    rw [bind_app, occurrences_app, occurrences_app, List.flatMap_map, List.flatMap_assoc,
      List.flatMap_def, List.flatMap_def, List.map_congr_left ih]

theorem mem_occurrences_of_subterm? {t : Term ν} {p : Position} {v : ν}
    (found : t.subterm? p = some (.var v)) : v ∈ t.occurrences := by
  induction p generalizing t with
  | nil =>
    obtain rfl := Option.some.inj found
    simp
  | cons i p ih =>
    cases t with
    | const c => cases found
    | var w => cases found
    | app f args =>
      simp only [subterm?, children] at found
      split at found
      · rename_i u held
        rw [occurrences_app]
        exact List.mem_flatMap.2 ⟨u, List.mem_of_getElem? held, ih found⟩
      · cases found

theorem map_app (g : ν → μ) (f : FunctionSymbol) (args : List (Term ν)) :
    (app f args).map g = app f (args.map (map g)) := by
  rw [map, bind, bindAll_eq_map]
  rfl

theorem bind_map (g : ν → μ) (h : μ → Term ρ) (t : Term ν) :
    (t.map g).bind h = t.bind fun v => h (g v) :=
  bind_bind _ h t

@[simp] theorem size_map (g : ν → μ) (t : Term ν) : (t.map g).size = t.size := by
  induction t with
  | const c => rfl
  | var v => rfl
  | app f args ih =>
    have together : sizeAll (args.map (map g)) = sizeAll args := by
      induction args with
      | nil => rfl
      | cons t rest ihRest =>
        rw [List.map_cons, sizeAll, sizeAll, ih t List.mem_cons_self,
          ihRest fun u member => ih u (List.mem_cons_of_mem t member)]
    rw [map_app, size, size, together]

@[simp] theorem depth_map (g : ν → μ) (t : Term ν) : (t.map g).depth = t.depth := by
  induction t with
  | const c => rfl
  | var v => rfl
  | app f args ih =>
    have together : depthAll (args.map (map g)) = depthAll args := by
      induction args with
      | nil => rfl
      | cons t rest ihRest =>
        rw [List.map_cons, depthAll, depthAll, ih t List.mem_cons_self,
          ihRest fun u member => ih u (List.mem_cons_of_mem t member)]
    rw [map_app, depth, depth, together]

theorem occurrences_map (g : ν → μ) (t : Term ν) :
    (t.map g).occurrences = t.occurrences.map g := by
  simp only [map, occurrences_bind, occurrences_var, List.map_eq_flatMap]

theorem children_map (g : ν → μ) (t : Term ν) : (t.map g).children = t.children.map (map g) := by
  cases t with
  | const c => rfl
  | var v => rfl
  | app f args => rw [map_app, children, children]

theorem subterm?_map (g : ν → μ) (t : Term ν) (p : Position) :
    (t.map g).subterm? p = (t.subterm? p).map (map g) := by
  induction p generalizing t with
  | nil => rfl
  | cons i p ih =>
    simp only [subterm?, children_map, List.getElem?_map]
    cases t.children[i]? with
    | none => rfl
    | some u => exact ih u

theorem Walk.toList_nil : Walk.toList (⟨[]⟩ : Walk ν) = [] := by
  rw [Walk.toList]
  rfl

/-- A walk lists what is next, and goes on to its arguments. -/
theorem Walk.toList_cons (p : Position) (t : Term ν) (rest : List (Position × Term ν)) :
    Walk.toList ⟨(p, t) :: rest⟩ = (p, t) :: Walk.toList ⟨childrenAt p t ++ rest⟩ := by
  rw [Walk.toList]
  rfl

/-- What holds when nothing is pending, and before a step if it holds after it, holds of all that
may be pending. -/
@[elab_as_elim]
theorem Walk.induct {motive : List (Position × Term ν) → Prop} (finished : motive [])
    (step : ∀ p t rest, motive (childrenAt p t ++ rest) → motive ((p, t) :: rest))
    (pending : List (Position × Term ν)) : motive pending := by
  suffices ∀ w : Walk ν, motive w.pending from this ⟨pending⟩
  intro w
  induction w using Walk.toList.induct with
  | case1 w ended =>
    obtain ⟨_ | ⟨item, rest⟩⟩ := w
    · exact finished
    · cases ended
  | case2 w item w' taken ih =>
    obtain ⟨_ | ⟨⟨p, t⟩, rest⟩⟩ := w
    · cases taken
    · obtain ⟨rfl, rfl⟩ := Prod.mk.inj (Option.some.inj taken)
      exact step p t rest ih

theorem childrenAt_map (g : ν → μ) (p : Position) (t : Term ν) :
    childrenAt p (t.map g) = (childrenAt p t).map fun item => (item.1, item.2.map g) := by
  simp [childrenAt, children_map, List.mapIdx_eq_zipIdx_map, List.zipIdx_map]

/-- The walk through the changed term takes the same steps. -/
theorem subterms_map (g : ν → μ) (t : Term ν) :
    (t.map g).subterms = t.subterms.map fun item => (item.1, item.2.map g) := by
  suffices ∀ pending, Walk.toList ⟨pending.map fun item => (item.1, item.2.map g)⟩ =
      (Walk.toList ⟨pending⟩).map fun item => (item.1, item.2.map g) from this [(Position.root, t)]
  intro pending
  induction pending using Walk.induct with
  | finished => rw [List.map_nil, Walk.toList_nil, Walk.toList_nil, List.map_nil]
  | step p u rest ih =>
    rw [List.map_append, ← childrenAt_map] at ih
    rw [List.map_cons, Walk.toList_cons, Walk.toList_cons, List.map_cons, ih]

@[simp] theorem positions_map (g : ν → μ) (t : Term ν) : (t.map g).positions = t.positions := by
  rw [positions, positions, subterms_map, List.map_map]
  rfl

end TermAlgebra.Term
