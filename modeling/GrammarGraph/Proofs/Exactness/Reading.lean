import GrammarGraph.Proofs.Exactness.Promises

/-! Reading a derivation from a derivative: what a derivative gives, the node gives after the
symbol. The induction is on the derivation. A derivative of a concatenation has parts that
are no derivatives themselves, so a node comes with the role that it plays for another. -/
namespace GrammarGraph.Graph

/-- An eps node with the one witness of the symbol is worth what taking it is worth. -/
def Attests (P : Value → Prop) (A : Worth ω) : Prop :=
  ∀ {c c' w}, P c → P c' → c'.same c = true → (A.eps [c'] w ↔ A.symbol c w)

/-- What a node is to the derivative of `n` by `c`. -/
inductive Role (P : Value → Prop) (g : Graph) (c : Value) (n : NodeId) : NodeId → Prop where
  | simple {m : NodeId} : (g.node n).kind ≠ .cat → Derivative P g c n m → Role P g c n m
  | skips {a b v m : NodeId} : (g.node n).kind = .cat → (g.node n).first = .node a →
      (g.node n).second = .node b → Vanishes g a v → Skips P g c n v m → Role P g c n m
  | takes {b m : NodeId} : (g.node n).kind = .cat → (g.node n).second = .node b →
      Takes P g c n b m → Role P g c n m
  | joins {skip take m : NodeId} : (g.node n).kind = .cat → Role P g c n skip →
      Role P g c n take → (g.node m).kind = .alt → (g.node m).first = .node skip →
      (g.node m).second = .node take → Role P g c n m

variable {P : Value → Prop} {g : Graph} {c : Value} {n d : NodeId}

theorem Derivative.role (h : Derivative P g c n d) : Role P g c n d := by
  cases h with
  | cat kind slot slot' vanishes skips takes joins =>
    have skip := Role.skips kind slot slot' vanishes skips
    have take := Role.takes kind slot' takes
    cases joins with
    | second _ same => rw [same]; exact take
    | first _ same => rw [same]; exact skip
    | alt kind' first second => exact .joins kind skip take kind' first second
  | nothing kind same =>
    exact .simple (by rintro other; simp_all) (.nothing kind same)
  | mismatch kind other same => exact .simple (by simp [kind]) (.mismatch kind other same)
  | taken kind same kind' ws hp hc => exact .simple (by simp [kind]) (.taken kind same kind' ws hp hc)
  | alt kind kind' promised => exact .simple (by simp [kind]) (.alt kind kind' promised)
  | rep kind kind' promised slot => exact .simple (by simp [kind]) (.rep kind kind' promised slot)
  | red kind kind' same promised => exact .simple (by simp [kind]) (.red kind kind' same promised)

variable {A : Worth ω} {s : List Value} {w : ω}

theorem not_derives_empty (empty : (g.node .empty).kind = .empty) :
    ¬ Derives A g.node .empty s w := by
  intro h
  cases h <;> simp_all

theorem Vanishes.derives (empty : (g.node .empty).kind = .empty) {a v : NodeId}
    (h : Vanishes g a v) (d : Derives A g.node v s w) : s = [] ∧ Derives A g.node a [] w := by
  cases h with
  | nothing _ same => rw [same] at d; exact (not_derives_empty empty d).elim
  | itself kind same =>
    subst same
    cases d with
    | eps hk hw => exact ⟨rfl, .eps hk hw⟩
    | _ => simp_all
  | delta kind slot =>
    cases d with
    | delta _ ha d => exact ⟨rfl, Slot.node.inj (slot.symm.trans ha) ▸ d⟩
    | _ => simp_all

namespace Role

variable {m : NodeId} (role : Role P g c n m) (empty : (g.node .empty).kind = .empty)
include role empty

theorem eps (kind : (g.node m).kind = .eps) : (g.node n).kind = .char ∧
    (g.node n).symbol.same c = true ∧
    ∃ c', (g.node m).witnesses = [c'] ∧ P c' ∧ c'.same c = true := by
  cases role with
  | simple _ h =>
    cases h with
    | taken kind same _ ws hp hc => exact ⟨kind, same, _, ws, hp, hc⟩
    | _ => simp_all
  | skips _ _ _ _ h | takes _ _ h => cases h <;> simp_all
  | joins => simp_all

theorem alt (kind : (g.node m).kind = .alt) :
    ((g.node n).kind = .alt ∧ ∀ side, Promises P g c n side ((g.node m).slot side)) ∨
    ∃ skip take, Role P g c n skip ∧ Role P g c n take ∧ (g.node m).first = .node skip ∧
      (g.node m).second = .node take := by
  cases role with
  | simple _ h =>
    cases h with
    | alt kind _ promised => exact .inl ⟨kind, promised⟩
    | _ => simp_all
  | skips _ _ _ _ h | takes _ _ h => cases h <;> simp_all
  | joins _ skip take _ first second => exact .inr ⟨_, _, skip, take, first, second⟩

theorem cat (kind : (g.node m).kind = .cat) :
    ((g.node n).kind = .rep ∧ Promises P g c n .first (g.node m).first ∧
      (g.node m).second = .node n) ∨
    (g.node n).kind = .cat ∧
      ((∃ a v, (g.node n).first = .node a ∧ Vanishes g a v ∧ (g.node m).first = .node v ∧
        Promises P g c n .second (g.node m).second) ∨
      ∃ b, (g.node n).second = .node b ∧ Promises P g c n .first (g.node m).first ∧
        (g.node m).second = .node b) := by
  cases role with
  | simple _ h =>
    cases h with
    | rep kind _ promised slot => exact .inl ⟨kind, promised, slot⟩
    | _ => simp_all
  | skips kind slot _ vanishes h =>
    cases h with
    | cat _ slot' promised => exact .inr ⟨kind, .inl ⟨_, _, slot, vanishes, slot', promised⟩⟩
    | nothing => simp_all
  | takes kind slot h =>
    cases h with
    | cat _ promised slot' => exact .inr ⟨kind, .inr ⟨_, slot, promised, slot'⟩⟩
    | nothing => simp_all
  | joins => simp_all

theorem red (kind : (g.node m).kind = .red) : (g.node n).kind = .red ∧
    (g.node m).transform = (g.node n).transform ∧
    Promises P g c n .first (g.node m).first := by
  cases role with
  | simple _ h =>
    cases h with
    | red kind _ same promised => exact ⟨kind, same, promised⟩
    | _ => simp_all
  | skips _ _ _ _ h | takes _ _ h => cases h <;> simp_all
  | joins => simp_all

theorem no_other : (g.node m).kind ≠ .char ∧ (g.node m).kind ≠ .rep ∧ (g.node m).kind ≠ .delta := by
  cases role with
  | simple _ h => cases h <;> simp_all
  | skips _ _ _ _ h | takes _ _ h => cases h <;> simp_all
  | joins => simp_all

end Role

/-- Reading off a derivation: what the derivative gives, the node gives after the symbol. -/
theorem Role.derives (attests : Attests P A) (hc : P c)
    (empty : (g.node .empty).kind = .empty)
    (memo : ∀ {n d}, g.derivatives.find? n c = some d → Derivative P g c n d)
    {m : NodeId} (h : Derives A g.node m s w) :
    ∀ {n}, Role P g c n m → Derives A g.node n (c :: s) w := by
  have held {n k : NodeId} {side : Side} {x : Slot} (slot : x = .node k)
      (promised : Promises P g c n side x) :
      ∃ j, (g.node n).slot side = .node j ∧ Role P g c j k := by
    subst slot
    obtain ⟨j, slot, found⟩ := promised
    exact ⟨j, slot, (memo found).role⟩
  induction h with
  | eps hk hw =>
    intro n role
    obtain ⟨kind, same, c', ws, hp, equal⟩ := role.eps empty hk
    exact .char kind same ((attests hc hp equal).mp (ws ▸ hw))
  | alt side hk ha _ ih =>
    intro n role
    rcases role.alt empty hk with ⟨kind, promised⟩ | ⟨skip, take, hskip, htake, first, second⟩
    · obtain ⟨j, slot, role⟩ := held ha (promised side)
      exact .alt side kind slot (ih role)
    · cases side with
      | first =>
        obtain rfl := Slot.node.inj (first.symm.trans ha)
        exact ih hskip
      | second =>
        obtain rfl := Slot.node.inj (second.symm.trans ha)
        exact ih htake
  | cat hk ha hb d d' ih ih' =>
    intro n role
    rcases role.cat empty hk with ⟨kind, promised, slot⟩ | ⟨kind, ⟨a, v, first, vanishes, slot, promised⟩ |
      ⟨b, second, promised, slot⟩⟩
    · obtain ⟨j, slot', role⟩ := held ha promised
      obtain rfl := Slot.node.inj (slot.symm.trans hb)
      exact .repMore kind slot' (ih role) d'
    · obtain ⟨j, slot', role⟩ := held hb promised
      obtain rfl := Slot.node.inj (slot.symm.trans ha)
      obtain ⟨rfl, nothing⟩ := vanishes.derives empty d
      exact .cat kind first slot' nothing (ih' role)
    · obtain ⟨j, slot', role⟩ := held ha promised
      obtain rfl := Slot.node.inj (slot.symm.trans hb)
      exact .cat kind slot' second (ih role) d'
  | red hk ha d hw ih =>
    intro n role
    obtain ⟨kind, same, promised⟩ := role.red empty hk
    obtain ⟨j, slot, role⟩ := held ha promised
    exact .red kind slot (ih role) (same ▸ hw)
  | char hk => exact fun role => absurd hk (role.no_other empty).1
  | repNone hk | repMore hk => exact fun role => absurd hk (role.no_other empty).2.1
  | delta hk => exact fun role => absurd hk (role.no_other empty).2.2

end GrammarGraph.Graph
