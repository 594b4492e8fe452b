import HeaderBinding.Emission.Marshal
import HeaderBinding.Proofs.Graph.Way
import HeaderBinding.Proofs.Native.Twins

namespace HeaderBinding

inductive Node.Twins : Node → Node → Prop where
  | synonym {d d' : Typedef} : d.Twins d' → Node.Twins (.synonym d) (.synonym d')
  | definition {d d' : Definition} : d.Twins d' → Node.Twins (.definition d) (.definition d')

theorem Node.Twins.symm {n n' : Node} (h : n.Twins n') : n'.Twins n := by
  cases h with
  | synonym hd => exact .synonym ⟨hd.1.symm, hd.2.symm⟩
  | definition hd => exact .definition (NativeType.Twins.symm hd)

structure Store.Agrees (s t : Store) : Prop where
  node : ∀ k, Option.Rel Node.Twins (s.node? k) (t.node? k)
  bound : ∀ name, (boundValue? s name).isSome = (boundValue? t name).isSome

inductive Denoted.Twins : Denoted → Denoted → Prop where
  | builtin (b : Builtin) : Denoted.Twins (.builtin b) (.builtin b)
  | definition {d d' : Definition} : d.Twins d' → Denoted.Twins (.definition d) (.definition d')
  | structural {x y : NativeType} : x.Twins y → Denoted.Twins (.structural x) (.structural y)
  | unresolved (name : String) : Denoted.Twins (.unresolved name) (.unresolved name)
  | cycle (name : String) : Denoted.Twins (.cycle name) (.cycle name)

structure Canonical.Twins (c c' : Canonical) : Prop where
  denoted : c.denoted.Twins c'.denoted
  owner : c.owner = c'.owner
  isConst : c.isConst = c'.isConst

namespace Canonical.Twins

variable {c c' : Canonical}

theorem of {d d' : Denoted} (h : d.Twins d') : (Canonical.of d).Twins (.of d') :=
  ⟨h, rfl, rfl⟩

theorem through (h : c.Twins c') (name : String) : (c.through name).Twins (c'.through name) :=
  ⟨h.denoted, congrArg (fun owner : Option String => some (owner.getD name)) h.owner, h.isConst⟩

theorem qualified (h : c.Twins c') (isConst : Bool) : (c.qualified isConst).Twins (c'.qualified isConst) :=
  ⟨h.denoted, h.owner, congrArg (isConst || ·) h.isConst⟩

theorem builtin?_eq (h : c.Twins c') : c.builtin? = c'.builtin? := by
  obtain ⟨hdenoted, -, -⟩ := h
  unfold builtin?
  generalize c.denoted = z at hdenoted
  generalize c'.denoted = z' at hdenoted
  cases hdenoted <;> rfl

theorem isRecord_eq (h : c.Twins c') : c.isRecord = c'.isRecord := by
  obtain ⟨hdenoted, -, -⟩ := h
  unfold isRecord record?
  generalize c.denoted = z at hdenoted
  generalize c'.denoted = z' at hdenoted
  cases hdenoted with
  | @definition d d' hd =>
    have hhead := NativeType.Related.head hd
    cases d <;> cases d' <;> first
      | rfl
      | exact absurd hhead id
  | @structural x y hxy =>
    have hhead := hxy.head
    cases x <;> cases y <;> first
      | rfl
      | exact absurd hhead id
  | _ => rfl

end Canonical.Twins

theorem NativeType.Twins.isStructural {x y : NativeType} (h : x.Twins y) (hx : x.isStructural = true) :
    y.isStructural = true := by
  have hhead := h.head
  cases x <;> cases y <;> first
    | exact absurd hhead id
    | exact hx

namespace Store

variable {s t : Store} {seen : Seen} {x y : NativeType} {c : Canonical}

theorem Agrees.eq_none (hst : s.Agrees t) {k : Key} (hk : s.node? k = none) : t.node? k = none := by
  have hnode := hst.node k
  rw [hk] at hnode
  generalize t.node? k = n at hnode ⊢
  cases hnode
  rfl

theorem Agrees.definition (hst : s.Agrees t) {k : Key} {d : Definition} (hk : s.node? k = some (.definition d)) :
    ∃ d', t.node? k = some (.definition d') ∧ d.Twins d' := by
  have hnode := hst.node k
  rw [hk] at hnode
  generalize t.node? k = n at hnode ⊢
  rcases hnode with ⟨⟨⟩ | hd⟩
  exact ⟨_, rfl, hd⟩

theorem Agrees.synonym (hst : s.Agrees t) {k : Key} {d : Typedef} (hk : s.node? k = some (.synonym d)) :
    ∃ d', t.node? k = some (.synonym d') ∧ d.Twins d' := by
  have hnode := hst.node k
  rw [hk] at hnode
  generalize t.node? k = n at hnode ⊢
  rcases hnode with ⟨hd | ⟨⟩⟩
  exact ⟨_, rfl, hd⟩

theorem Agrees.leads (hst : s.Agrees t) (h : Leads s seen x c) (hxy : x.Twins y) :
    ∃ c', Leads t seen y c' ∧ c.Twins c' := by
  induction h generalizing y with
  | builtin seen b =>
    rw [hxy.of_builtin]
    exact ⟨_, .builtin seen b, .of (.builtin b)⟩
  | structural seen hx => exact ⟨_, .structural seen (hxy.isStructural hx), .of (.structural hxy)⟩
  | @again seen name target hseen =>
    obtain ⟨target', rfl, -⟩ := hxy.of_synonym
    exact ⟨_, .again target' hseen, .of (.cycle name)⟩
  | @synonym seen name target c hseen _ ih =>
    obtain ⟨target', rfl, htarget⟩ := hxy.of_synonym
    obtain ⟨c', hc', hcc⟩ := ih htarget
    exact ⟨_, .synonym hseen hc', hcc.through name⟩
  | @unlinked seen r htarget =>
    rw [hxy.of_named]
    exact ⟨_, .unlinked seen htarget, .qualified (.of (.unresolved r.name)) r.isConst⟩
  | @spelled seen r b htarget =>
    rw [hxy.of_named]
    exact ⟨_, .spelled seen htarget, .qualified (.of (.builtin b)) r.isConst⟩
  | @cycle seen r k htarget hseen =>
    rw [hxy.of_named]
    exact ⟨_, .cycle htarget hseen, .qualified (.of (.cycle r.name)) r.isConst⟩
  | @missing seen r k htarget hseen hk =>
    rw [hxy.of_named]
    exact ⟨_, .missing htarget hseen (hst.eq_none hk), .qualified (.of (.unresolved r.name)) r.isConst⟩
  | @definition seen r k d htarget hseen hk =>
    obtain ⟨d', hk', hd⟩ := hst.definition hk
    rw [hxy.of_named]
    exact ⟨_, .definition htarget hseen hk', .qualified (.of (.definition hd)) r.isConst⟩
  | @typedef seen r k d c htarget hseen hk _ ih =>
    obtain ⟨d', hk', hd⟩ := hst.synonym hk
    obtain ⟨c', hc', hcc⟩ := ih hd.2
    have hthrough := (hcc.through d.name).qualified r.isConst
    rw [hxy.of_named]
    exact ⟨_, .typedef htarget hseen hk' hc', hd.1 ▸ hthrough⟩

theorem Agrees.canonical (hst : s.Agrees t) (hxy : x.Twins y) : (x.canonical s).Twins (y.canonical t) := by
  obtain ⟨c', hc', htwins⟩ := hst.leads (leads_canonicalFrom s .nothing x) hxy
  rwa [NativeType.canonical, NativeType.canonical, hc'.eq]

theorem Agrees.symm (hst : s.Agrees t) : t.Agrees s where
  node k := by
    have hnode := hst.node k
    generalize s.node? k = n at hnode
    generalize t.node? k = n' at hnode
    cases hnode with
    | none => exact .none
    | some h => exact .some h.symm
  bound name := (hst.bound name).symm

end Store

end HeaderBinding
