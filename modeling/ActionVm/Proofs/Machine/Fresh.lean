import ActionVm.Machine.Builtins
import ActionVm.Proofs.Machine.Plain

namespace ActionVm

/-- The object is plain, no value refers to another object, and placeholders stand for the given scripts only. -/
structure Store.Early (inits : List UInt32) (g : Ref) (s : Store) : Prop where
  plain : s.IsPlain g
  deferred : ∀ r init, (s.value r).deferred? = some init → init ∈ inits
  references : ∀ r, (s.value r).references = []

namespace Store.Early

variable {s : Store} {inits : List UInt32} {g : Ref}

theorem alloc (h : s.Early inits g) {o : Object} (hr : o.value.references = [])
    (hd : ∀ init, o.value.deferred? = some init → init ∈ inits) : (s.alloc o).2.Early inits g where
  plain := h.plain.alloc o
  deferred r init hi := by
    rw [value_push] at hi
    split at hi
    · exact hd init hi
    · exact h.deferred r init hi
  references r := by
    rw [value_push]
    split
    · exact hr
    · exact h.references r

theorem allocSimple (h : s.Early inits g) {o : Object} (ho : o.value.IsSimple) : (s.alloc o).2.Early inits g := by
  apply h.alloc ho.references
  intro init hi
  rw [ho.deferred] at hi
  cases hi

theorem update (h : s.Early inits g) (r : Ref) {f : Object → Object} (hf : ∀ o, (f o).value = o.value) :
    (s.update r f).Early inits g where
  plain := h.plain.update r hf
  deferred r' := by
    rw [value_update _ _ _ hf]
    exact h.deferred r'
  references r' := by
    rw [value_update _ _ _ hf]
    exact h.references r'

theorem mono (h : s.Early inits g) (hi : ∀ init ∈ inits, init ∈ more) : s.Early more g where
  plain := h.plain
  deferred r init hr := hi init (h.deferred r init hr)
  references := h.references

end Store.Early

/-- A machine on which nothing was done but to make its global object. -/
structure Machine.Blank (document : Document) (config : Config) (embedding : Embedding) (g : Ref) (m : Machine) :
    Prop where
  document : m.document = document
  config : m.config = config
  embedding : m.embedding = embedding
  global : m.global = g
  started : m.started = []
  journal : m.journal = []
  compiled : m.compiled = {}
  compileCount : m.compileCount = 0
  store : m.store.Early [] g

/-- A machine on which no script was started, though scripts may be declared. -/
structure Machine.Fresh (document : Document) (embedding : Embedding) (inits : List UInt32) (g : Ref) (m : Machine) :
    Prop where
  document : m.document = document
  embedding : m.embedding = embedding
  global : m.global = g
  started : m.started = []
  journal : ∀ n ∈ m.journal, ∃ method, n = .translated method
  store : m.store.Early inits g

theorem Machine.Fresh.builtOn (document : Document) (embedding : Embedding) (inits : List UInt32) (g : Ref) :
    BuiltOn g (· ∈ inits) (Fresh document embedding inits g) where
  plain h := h.store.plain
  alloc h hv := { h with store := h.store.allocSimple hv }
  defer h hi := { h with
    store := h.store.alloc rfl fun init he => by
      cases he
      exact hi }
  update h hf := { h with store := h.store.update g hf }
  note method h := { h with
    journal := List.forall_mem_cons.mpr ⟨⟨method, rfl⟩, h.journal⟩ }
  compile _ _ h := { h with }

theorem Machine.Blank.fresh {m : Machine} {d : Document} {c : Config} {e : Embedding} (h : m.Blank d c e g)
    (inits : List UInt32) : m.Fresh d e inits g where
  document := h.document
  embedding := h.embedding
  global := h.global
  started := h.started
  journal := by
    rw [h.journal]
    exact nofun
  store := h.store.mono nofun

namespace MachineM

variable {document : Document} {config : Config} {embedding : Embedding} {g : Ref}

theorem keeps_alloc {o : Object} (h : o.value.IsSimple) :
    Keeps (Machine.Blank document config embedding g) (onStore (StoreM.alloc o)) :=
  fun m hm => ⟨_, { m with store := (m.store.alloc o).2 }, rfl, { hm with store := hm.store.allocSimple h }⟩

theorem keeps_setNamed (r : Ref) (hn : arrayIndex? name = none) (new : Ref) :
    Keeps (Machine.Blank document config embedding g) (setProperty r name new) := by
  intro m hm
  refine ⟨(), { m with store := m.store.update r fun o => { o with properties := o.properties.insert name new } }, ?_, ?_⟩
  · simp only [setProperty, onStore, StoreM.setProperty_of_name hn]
  · exact { hm with store := hm.store.update r fun _ => rfl }

theorem keeps_registerClass (name : String) (value : Ref) :
    Keeps (Machine.Blank document config embedding g) (registerClass name value) := by
  intro m hm
  let bound := m.store.update m.global fun o => { o with properties := o.properties.insert name value }
  have hplain : m.store.IsPlain m.global := by
    rw [hm.global]
    exact hm.store.plain
  have hget : (get : MachineM Machine) m = .ok m m := rfl
  have hset : onStore (StoreM.setProperty m.global name value) m = .ok () { m with store := bound } := by
    simp only [onStore, StoreM.setProperty_of_plain hplain, bound]
  refine ⟨(), { m with store := bound, classes := m.classes.insert name .builtin }, ?_, ?_⟩
  · rw [registerClass, bind_of_ok hget]
    exact bind_of_ok hset
  · exact { hm with store := hm.store.update m.global fun _ => rfl }

theorem keeps_builtin (f : Builtin) : Keeps (Machine.Blank document config embedding g) (builtin f) :=
  keeps_alloc ⟨rfl, rfl⟩

theorem keeps_conversion {v : Value} (h : v.IsSimple) (f : Builtin) :
    Keeps (Machine.Blank document config embedding g) (conversion v f) :=
  .bind (keeps_alloc h) fun r => .bind (keeps_builtin f) fun _ => .bind (keeps_setNamed r (by decide) _) fun _ => .pure _

theorem keeps_math : Keeps (Machine.Blank document config embedding g) math := by
  refine .bind (keeps_alloc ⟨rfl, rfl⟩) fun r => .bind (keeps_alloc ⟨rfl, rfl⟩) fun _ => ?_
  refine .bind (keeps_setNamed r (by decide) _) fun _ => .bind (keeps_builtin _) fun _ => ?_
  refine .bind (keeps_setNamed r (by decide) _) fun _ => .bind (keeps_builtin _) fun _ => ?_
  refine .bind (keeps_setNamed r (by decide) _) fun _ => .bind (keeps_builtin _) fun _ => ?_
  exact .bind (keeps_setNamed r (by decide) _) fun _ => .pure _

theorem keeps_registerBuiltins : Keeps (Machine.Blank document config embedding g) registerBuiltins := by
  refine .bind (keeps_alloc ⟨rfl, rfl⟩) fun r => .bind (keeps_registerClass "Object" r) fun _ => ?_
  refine .bind (keeps_conversion ⟨rfl, rfl⟩ .toInt) fun r => .bind (keeps_registerClass "int" r) fun _ => ?_
  refine .bind (keeps_conversion ⟨rfl, rfl⟩ .toBoolean) fun r => .bind (keeps_registerClass "Boolean" r) fun _ => ?_
  refine .bind (keeps_conversion ⟨rfl, rfl⟩ .toNumber) fun r => .bind (keeps_registerClass "Number" r) fun _ => ?_
  refine .bind (keeps_conversion ⟨rfl, rfl⟩ .toText) fun r => .bind (keeps_registerClass "String" r) fun _ => ?_
  refine .bind (keeps_alloc ⟨rfl, rfl⟩) fun r => .bind (keeps_registerClass "Array" r) fun _ => ?_
  refine .bind (keeps_alloc ⟨rfl, rfl⟩) fun r => .bind (keeps_registerClass "undefined" r) fun _ => ?_
  have hrest : Keeps (Machine.Blank document config embedding g) (do
      let global := (← get).global
      setProperty global "Math" (← math)
      setProperty global "trace" (← builtin .trace)
      setProperty global "parseInt" (← builtin .parseInt)) := by
    refine .bind .get fun m => .bind keeps_math fun r => .bind (keeps_setNamed _ (by decide) r) fun _ => ?_
    refine .bind (keeps_builtin _) fun r => .bind (keeps_setNamed _ (by decide) r) fun _ => ?_
    exact .bind (keeps_builtin _) fun r => keeps_setNamed _ (by decide) r
  refine .bind .get fun m => ?_
  split
  · refine .bind (.forIn (fun name _ => ?_) _ _) fun _ => hrest
    exact .bind (keeps_alloc ⟨rfl, rfl⟩) fun r => .bind (keeps_registerClass name r) fun _ => .pure _
  · exact hrest

end MachineM

theorem Machine.blank_bare (document : Document) (config : Config) (embedding : Embedding) :
    (bare document config embedding).Blank document config embedding ⟨0⟩ where
  document := rfl
  config := rfl
  embedding := rfl
  global := rfl
  started := rfl
  journal := rfl
  compiled := rfl
  compileCount := rfl
  store := {
    plain := rfl
    deferred := fun r init hr => by
      change ((Store.alloc {} { className := "Global" }).2.value r).deferred? = some init at hr
      rw [Store.value_push] at hr
      split at hr <;> cases hr
    references := fun r => by
      change ((Store.alloc {} { className := "Global" }).2.value r).references = []
      rw [Store.value_push]
      split <;> rfl }

theorem Machine.blank_create (document : Document) (config : Config) (embedding : Embedding) :
    (create document config embedding).Blank document config embedding ⟨0⟩ := by
  obtain ⟨_, m, hrun, hm⟩ := MachineM.keeps_registerBuiltins _ (blank_bare document config embedding)
  delta create
  generalize MachineM.registerBuiltins (bare document config embedding) = result at hrun ⊢
  cases hrun
  exact hm

end ActionVm
