import Mathlib.Logic.Relation
import TermAlgebra.Proofs.PoolCalls
import TermAlgebra.Proofs.VariableFlow
import TermAlgebra.Session.Step
/-!
Handles and the registers that hold them. `Change` lists the changes of which the steps of a session
are made up. Each of them keeps the count of a pool's handles equal to the number of registers that
hold one (`Change.sound`), so that a pool is open exactly as long as there is such a register; and a
pool that is closed stays closed (`Change.later`).
-/
namespace TermAlgebra

namespace Registry

variable {r q : Registry} {id : PoolId} {p p' : Pool}

/-- How many handles to a pool are held; none if it is not open. -/
def handles (r : Registry) (id : PoolId) : Nat := ((r.pools.get? id).map (·.handles)).getD 0

/-- Every open pool is held open by some handle. -/
def Positive (r : Registry) : Prop := ∀ id o, r.pools.get? id = some o → 0 < o.handles

theorem isSome_find?_iff (positive : r.Positive) :
    (r.find? id).isSome = true ↔ 0 < r.handles id := by
  rw [find?, handles]
  cases held : r.pools.get? id with
  | none => simp
  | some o => simpa using positive id o held

theorem handles_of_closed (closed : r.find? id = none) : r.handles id = 0 := by
  rw [handles, Option.map_eq_none_iff.1 closed]
  rfl

theorem handles_retain (found : r.find? id = some p) (other : PoolId) :
    (r.retain id).handles other = r.handles other + if id = other then 1 else 0 := by
  obtain ⟨o, held, -⟩ := Option.map_eq_some_iff.1 found
  by_cases same : id = other
  · subst same
    simp [retain, handles, held, Table.get?_insert]
  · simp [retain, handles, held, Table.get?_insert, same]

theorem handles_release (id other : PoolId) :
    (r.release id).handles other = r.handles other - if id = other then 1 else 0 := by
  unfold release
  split
  · rename_i o held
    by_cases same : id = other
    · subst same
      split
      · simp [handles, held, Table.get?_erase]
        omega
      · simp [handles, held, Table.get?_insert]
    · split
      · simp [handles, Table.get?_erase, same]
      · simp [handles, Table.get?_insert, same]
  · rename_i closed
    by_cases same : id = other
    · subst same
      simp [handles, closed]
    · simp [same]

theorem handles_openPool (config : Pool.Config) (id : PoolId) :
    (r.openPool config).2.handles id = if id = r.opened then 1 else r.handles id := by
  by_cases same : r.opened = id
  · subst same
    simp [openPool, handles, Table.get?_insert]
  · simp [openPool, handles, Table.get?_insert, same, Ne.symm same]

theorem positive_insert (positive : r.Positive) {o : OpenPool} (held : 0 < o.handles)
    (opened : Nat) : Positive ⟨r.pools.insert id o, opened⟩ := by
  intro other o' found
  rw [Table.get?_insert] at found
  split at found
  · obtain rfl := Option.some.inj found
    exact held
  · exact positive other o' found

theorem positive_retain (positive : r.Positive) (id : PoolId) : (r.retain id).Positive := by
  unfold retain
  split
  · exact positive_insert positive (Nat.succ_pos _) _
  · exact positive

theorem positive_release (positive : r.Positive) (id : PoolId) : (r.release id).Positive := by
  unfold release
  split
  · split
    · intro other o found
      simp only [Table.get?_erase] at found
      split at found
      · cases found
      · exact positive other o found
    · rename_i several
      exact positive_insert positive (Nat.sub_pos_of_lt (Nat.lt_of_not_le several)) _
  · exact positive

theorem Sound.of_find? (sound : r.Sound) (opened : q.opened = r.opened)
    (pools : ∀ id p, q.find? id = some p → r.find? id = some p) : q.Sound := by
  intro id p found
  obtain ⟨own, below, kept⟩ := sound id p (pools id p found)
  exact ⟨own, opened ▸ below, kept⟩

theorem Sound.retain (sound : r.Sound) (id : PoolId) : (r.retain id).Sound :=
  sound.of_find? (opened_retain id) fun other p found => by
    rw [find?_retain] at found
    exact found

theorem find?_of_release {other : PoolId} (found : (r.release id).find? other = some p) :
    r.find? other = some p := by
  rcases find?_release (r := r) id other with same | closed
  · exact same ▸ found
  · cases closed.symm.trans found

theorem Sound.release (sound : r.Sound) (id : PoolId) : (r.release id).Sound :=
  sound.of_find? (opened_release id) fun _ _ => find?_of_release

theorem Sound.openPool (sound : r.Sound) (config : Pool.Config) :
    (r.openPool config).2.Sound := by
  intro id p found
  rw [find?_openPool] at found
  split at found
  · rename_i new
    obtain rfl := Option.some.inj found
    exact ⟨rfl, Nat.lt_succ_of_le (Nat.le_of_eq new), fun name state known => by cases known⟩
  · obtain ⟨own, below, kept⟩ := sound id p found
    exact ⟨own, Nat.lt_succ_of_lt below, kept⟩

theorem closed_opened (sound : r.Sound) : r.find? r.opened = none := by
  cases found : r.find? r.opened with
  | none => rfl
  | some p => exact absurd (sound r.opened p found).2.1 (Nat.lt_irrefl _)

/-- The same pools at a later time, still held by as many handles. -/
structure Continues (r q : Registry) : Prop where
  opened : q.opened = r.opened
  handles : ∀ id, q.handles id = r.handles id
  pools : ∀ id p', q.find? id = some p' → ∃ p, r.find? id = some p ∧ p.Continues p'

theorem Continues.refl (r : Registry) : r.Continues r :=
  ⟨rfl, fun _ => rfl, fun _ p found => ⟨p, found, .refl p⟩⟩

theorem Continues.trans {r q u : Registry} (first : r.Continues q) (second : q.Continues u) :
    r.Continues u where
  opened := second.opened.trans first.opened
  handles id := (second.handles id).trans (first.handles id)
  pools id p' found := by
    obtain ⟨p, between, later⟩ := second.pools id p' found
    obtain ⟨p₀, before, earlier⟩ := first.pools id p between
    exact ⟨p₀, before, earlier.trans later⟩

theorem Continues.update (found : r.find? p.id = some p) (continues : p.Continues p') :
    r.Continues (r.update p') where
  opened := opened_update p'
  handles id := by
    unfold Registry.update
    split
    · rename_i o held
      by_cases same : p'.id = id
      · subst same
        simp [Registry.handles, held, Table.get?_insert]
      · simp [Registry.handles, Table.get?_insert, same]
    · rfl
  pools id q found' := by
    rw [find?_update (continues.id ▸ found)] at found'
    split at found'
    · rename_i same
      obtain rfl := Option.some.inj found'
      exact ⟨p, by rw [← same, continues.id, found], continues⟩
    · exact ⟨q, found', .refl q⟩

theorem Continues.sound (continues : r.Continues q) (sound : r.Sound) : q.Sound := by
  intro id p' found'
  obtain ⟨p, found, later⟩ := continues.pools id p' found'
  obtain ⟨own, below, kept⟩ := sound id p found
  exact ⟨later.id.trans own, continues.opened ▸ below, later.canonical kept⟩

theorem Continues.positive (continues : r.Continues q) (positive : r.Positive) : q.Positive := by
  intro id o held
  have found : q.find? id = some o.pool := by rw [find?, held, Option.map_some]
  obtain ⟨p, before, -⟩ := continues.pools id _ found
  have some : 0 < r.handles id := (isSome_find?_iff positive).1 (by rw [before, Option.isSome_some])
  rw [← continues.handles, Registry.handles, held] at some
  exact some

end Registry

/-! ## Handles in registers -/

namespace Session

/-- Whether a register holds a handle to a pool. -/
def Slot.isHandle (id : PoolId) : Slot → Bool
  | pool other => other == id
  | var _ | term _ | subst _ => false

theorem Slot.isHandle_iff {id : PoolId} {slot : Slot} :
    slot.isHandle id = true ↔ slot = .pool id := by
  cases slot with
  | pool other => simp [isHandle]
  | var v => simp [isHandle]
  | term t => simp [isHandle]
  | subst s => simp [isHandle]

variable {s s' : Session} {id : PoolId} {K : Variable → Prop}

/-- How many registers hold a handle to a pool. -/
def holders (s : Session) (id : PoolId) : Nat := s.registers.count (Slot.isHandle id)

theorem holders_pos :
    0 < s.holders id ↔ ∃ register, s.registers.get? register = some (.pool id) := by
  rw [holders, Table.count_pos]
  constructor
  · rintro ⟨register, slot, held, handle⟩
    exact ⟨register, Slot.isHandle_iff.1 handle ▸ held⟩
  · rintro ⟨register, held⟩
    exact ⟨register, _, held, Slot.isHandle_iff.2 rfl⟩

theorem handles_releaseSlot (pools : Registry) (slot? : Option Slot) (id : PoolId) :
    (releaseSlot pools slot?).handles id =
      pools.handles id - (slot?.any (Slot.isHandle id)).toNat := by
  cases slot? with
  | none => rfl
  | some slot =>
    cases slot with
    | pool other =>
      rw [releaseSlot, Registry.handles_release, Option.any_some, Slot.isHandle]
      by_cases same : other = id
      · simp [same]
      · rw [if_neg same, beq_false_of_ne same]
        rfl
    | var v => rfl
    | term t => rfl
    | subst s => rfl

theorem releaseSlot_cases (pools : Registry) (slot? : Option Slot) :
    releaseSlot pools slot? = pools ∨ ∃ id, releaseSlot pools slot? = pools.release id := by
  unfold releaseSlot
  split
  · exact .inr ⟨_, rfl⟩
  · exact .inl rfl

/-! ## What a session keeps -/

/-- Every handle that is counted stands in a register, and the variables in registers are all of a
kind. -/
structure Sound (K : Variable → Prop) (s : Session) : Prop where
  pools : s.pools.Sound
  positive : s.pools.Positive
  counted : ∀ id, s.pools.handles id = s.holders id
  known : ∀ v, s.registers.Hold v → K v

/-- A pool is open as long as a register holds a handle to it. -/
theorem Sound.isOpen_iff (sound : s.Sound K) (id : PoolId) :
    (s.pools.find? id).isSome = true ↔ ∃ register, s.registers.get? register = some (.pool id) := by
  rw [Registry.isSome_find?_iff sound.positive, sound.counted, holders_pos]

theorem Sound.mono {K' : Variable → Prop} (sound : s.Sound K) (weaker : ∀ v, K v → K' v) :
    s.Sound K' :=
  { sound with known := fun v held => weaker v (sound.known v held) }

/-- The changes of which steps are made up. The variables that come to stand in registers are of
the kind `K`. -/
inductive Change (K : Variable → Prop) (s : Session) : Session → Prop where
  | makes (made : Nat) : Change K s { s with made }
  /-- Pools have answered. -/
  | asks {pools : Registry} (continues : s.pools.Continues pools) : Change K s { s with pools }
  /-- A register is written with something that is no handle. -/
  | keeps (register : String) {slot : Slot} (plain : ∀ id, slot ≠ .pool id)
      (known : ∀ v ∈ slot.vars, K v) : Change K s (s.put register slot)
  /-- A register is given one more handle to an open pool. -/
  | shares (register : String) {id : PoolId} {p : Pool} (found : s.pools.find? id = some p) :
      Change K s ({ s with pools := s.pools.retain id }.put register (.pool id))
  | opens (register : String) (config : Pool.Config) :
      Change K s
        ({ s with pools := (s.pools.openPool config).2 }.put register (.pool s.pools.opened))
  /-- A pool is opened whose handle no register is to hold. -/
  | opensUnkept (config : Pool.Config) :
      Change K s { s with pools := (s.pools.openPool config).2.release s.pools.opened }
  | drops (register : String) : Change K s (s.drop register)

theorem counted_put {s : Session} (register : String) (slot : Slot)
    (counted : ∀ id, s.pools.handles id = s.holders id + (slot.isHandle id).toNat) (id : PoolId) :
    (s.put register slot).pools.handles id = (s.put register slot).holders id := by
  have written := Table.count_insert (Slot.isHandle id) s.registers register slot
  have before := counted id
  rw [holders] at before
  show (releaseSlot s.pools (s.registers.get? register)).handles id =
    (s.registers.insert register slot).count (Slot.isHandle id)
  rw [handles_releaseSlot]
  omega

theorem hold_put {v : Variable} {register : String} {slot : Slot}
    (held : (s.put register slot).registers.Hold v) : v ∈ slot.vars ∨ s.registers.Hold v := by
  obtain ⟨place, other, found, inside⟩ := held
  change (s.registers.insert register slot).get? place = some other at found
  rw [Table.get?_insert] at found
  split at found
  · obtain rfl := Option.some.inj found
    exact .inl inside
  · exact .inr ⟨place, other, found, inside⟩

theorem sound_releaseSlot {pools : Registry} (sound : pools.Sound) (slot? : Option Slot) :
    (releaseSlot pools slot?).Sound := by
  rcases releaseSlot_cases pools slot? with same | ⟨id, same⟩
  · rw [same]
    exact sound
  · rw [same]
    exact sound.release id

theorem positive_releaseSlot {pools : Registry} (positive : pools.Positive) (slot? : Option Slot) :
    (releaseSlot pools slot?).Positive := by
  rcases releaseSlot_cases pools slot? with same | ⟨id, same⟩
  · rw [same]
    exact positive
  · rw [same]
    exact Registry.positive_release positive id

/-- Writing a register keeps a session sound if a new handle in it has been counted already. -/
theorem sound_put {s : Session} {register : String} {slot : Slot} (pools : s.pools.Sound)
    (positive : s.pools.Positive)
    (counted : ∀ id, s.pools.handles id = s.holders id + (slot.isHandle id).toNat)
    (known : ∀ v, s.registers.Hold v → K v) (new : ∀ v ∈ slot.vars, K v) :
    (s.put register slot).Sound K where
  pools := sound_releaseSlot pools _
  positive := positive_releaseSlot positive _
  counted := counted_put register slot counted
  known v held := (hold_put held).elim (new v) (known v)

theorem Sound.drop (sound : s.Sound K) (register : String) : (s.drop register).Sound K where
  pools := sound_releaseSlot sound.pools _
  positive := positive_releaseSlot sound.positive _
  counted id := by
    have erased := Table.count_erase (Slot.isHandle id) s.registers register
    have before := sound.counted id
    rw [holders] at before
    show (releaseSlot s.pools (s.registers.get? register)).handles id =
      (s.registers.erase register).count (Slot.isHandle id)
    rw [handles_releaseSlot]
    omega
  known v held := by
    obtain ⟨place, slot, found, inside⟩ := held
    change (s.registers.erase register).get? place = some slot at found
    rw [Table.get?_erase] at found
    split at found
    · cases found
    · exact sound.known v ⟨place, slot, found, inside⟩

theorem Change.sound (sound : s.Sound K) (change : Change K s s') : s'.Sound K := by
  -- No register holds a handle to the pool that would be opened next.
  have unopened := Registry.handles_of_closed (Registry.closed_opened sound.pools)
  cases change with
  | makes made => exact ⟨sound.pools, sound.positive, sound.counted, sound.known⟩
  | asks continues =>
    exact ⟨continues.sound sound.pools, continues.positive sound.positive,
      fun id => (continues.handles id).trans (sound.counted id), sound.known⟩
  | keeps register plain known =>
    refine sound_put sound.pools sound.positive (fun id => ?_) sound.known known
    rw [Bool.eq_false_iff.2 fun handle => plain id (Slot.isHandle_iff.1 handle), sound.counted]
    rfl
  | @shares register id p found =>
    refine sound_put (sound.pools.retain id) (Registry.positive_retain sound.positive id)
      (fun other => ?_) sound.known fun v inside => by cases inside
    show (s.pools.retain id).handles other = s.holders other + _
    rw [Registry.handles_retain found, sound.counted, Slot.isHandle]
    by_cases same : id = other <;> simp [same]
  | opens register config =>
    refine sound_put (sound.pools.openPool config)
      (Registry.positive_insert sound.positive Nat.one_pos _) (fun id => ?_) sound.known
      fun v inside => by cases inside
    show (s.pools.openPool config).2.handles id = s.holders id + _
    rw [Registry.handles_openPool, ← sound.counted, Slot.isHandle]
    by_cases same : s.pools.opened = id
    · subst same
      simp [unopened]
    · simp [same, Ne.symm same]
  | opensUnkept config =>
    refine ⟨(sound.pools.openPool config).release _,
      Registry.positive_release (Registry.positive_insert sound.positive Nat.one_pos _) _,
      fun id => ?_, sound.known⟩
    show ((s.pools.openPool config).2.release s.pools.opened).handles id = s.holders id
    rw [Registry.handles_release, Registry.handles_openPool, ← sound.counted]
    by_cases same : s.pools.opened = id
    · subst same
      simp [unopened]
    · simp [same, Ne.symm same]
  | drops register => exact sound.drop register

/-- Numbers of pools are given out once, so a pool that is closed stays closed. -/
def Later (s s' : Session) : Prop :=
  s.pools.opened ≤ s'.pools.opened ∧
    ∀ id, id < s.pools.opened → s.pools.find? id = none → s'.pools.find? id = none

theorem Later.refl (s : Session) : s.Later s := ⟨Nat.le_refl _, fun _ _ closed => closed⟩

theorem Later.trans {s₁ s₂ s₃ : Session} (first : s₁.Later s₂) (second : s₂.Later s₃) :
    s₁.Later s₃ :=
  ⟨Nat.le_trans first.1 second.1, fun id given closed =>
    second.2 id (Nat.lt_of_lt_of_le given first.1) (first.2 id given closed)⟩

theorem opened_releaseSlot (pools : Registry) (slot? : Option Slot) :
    (releaseSlot pools slot?).opened = pools.opened := by
  rcases releaseSlot_cases pools slot? with same | ⟨id, same⟩
  · rw [same]
  · rw [same, Registry.opened_release]

theorem closed_releaseSlot {pools : Registry} (slot? : Option Slot)
    (closed : pools.find? id = none) : (releaseSlot pools slot?).find? id = none := by
  rcases releaseSlot_cases pools slot? with same | ⟨other, same⟩
  · rw [same, closed]
  · rw [same]
    rcases Registry.find?_release (r := pools) other id with kept | gone
    · rw [kept, closed]
    · exact gone

theorem later_put (s : Session) (register : String) (slot : Slot) :
    s.Later (s.put register slot) :=
  ⟨Nat.le_of_eq (opened_releaseSlot _ _).symm, fun _ _ closed => closed_releaseSlot _ closed⟩

theorem Change.later (change : Change K s s') : s.Later s' := by
  have opening (config : Pool.Config) :
      s.Later { s with pools := (s.pools.openPool config).2 } :=
    ⟨Nat.le_succ _, fun id given closed => by
      show (s.pools.openPool config).2.find? id = none
      rw [Registry.find?_openPool, if_neg (Nat.ne_of_lt given), closed]⟩
  cases change with
  | makes made => exact ⟨Nat.le_refl _, fun _ _ closed => closed⟩
  | @asks pools continues =>
    refine ⟨Nat.le_of_eq continues.opened.symm, fun id _ closed => ?_⟩
    show pools.find? id = none
    cases found : pools.find? id with
    | none => rfl
    | some p' =>
      obtain ⟨p, before, -⟩ := continues.pools id p' found
      cases closed.symm.trans before
  | keeps register plain known => exact later_put s register _
  | @shares register id p found =>
    have retained : s.Later { s with pools := s.pools.retain id } :=
      ⟨Nat.le_of_eq (Registry.opened_retain id).symm, fun other _ closed => by
        show (s.pools.retain id).find? other = none
        rw [Registry.find?_retain, closed]⟩
    exact retained.trans (later_put _ register _)
  | opens register config => exact (opening config).trans (later_put _ register _)
  | opensUnkept config =>
    have released : Later { s with pools := (s.pools.openPool config).2 }
        { s with pools := (s.pools.openPool config).2.release s.pools.opened } :=
      ⟨Nat.le_of_eq (Registry.opened_release _).symm,
        fun _ _ closed => closed_releaseSlot (some (.pool s.pools.opened)) closed⟩
    exact (opening config).trans released
  | drops register =>
    exact ⟨Nat.le_of_eq (opened_releaseSlot _ _).symm,
      fun _ _ closed => closed_releaseSlot _ closed⟩

/-- One change after another. -/
abbrev Changes (K : Variable → Prop) : Session → Session → Prop :=
  Relation.ReflTransGen (Change K)

theorem Changes.sound (sound : s.Sound K) (changes : Changes K s s') : s'.Sound K := by
  induction changes with
  | refl => exact sound
  | tail _ last ih => exact last.sound ih

theorem Changes.later (changes : Changes K s s') : s.Later s' := by
  induction changes with
  | refl => exact .refl s
  | tail _ last ih => exact ih.trans last.later

end Session

end TermAlgebra
