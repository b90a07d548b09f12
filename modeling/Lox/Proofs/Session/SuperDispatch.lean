import Lox.Proofs.Session.Classes

/-!
Dispatch through `super`. Whatever object a method runs on, `super` stands for the class that the class
statement around it extended when it created the method, and what it gives is bound to the object that
`this` stands for at the same place.
-/
namespace Lox

theorem slots_append (inner outer : List Enclosure) : slots (inner ++ outer) = slots inner ++ slots outer :=
  List.flatMap_append

theorem Innermost.no_class {inner outer : List Enclosure}
    (h : Innermost (inner ++ outer) "this" (slots inner).length) (name : Token)
    (superclass : Option Token) : .classBody name superclass ∉ inner := by
  intro hmem
  have hslot : Slot.keyword "this" ∈ slots inner := by
    refine List.mem_flatMap.2 ⟨_, hmem, ?_⟩
    cases superclass <;> exact List.mem_cons_self ..
  obtain ⟨i, hlt, hfound⟩ := List.mem_iff_getElem.1 hslot
  have hplace : (slots (inner ++ outer))[i]? = some (.keyword "this") := by
    rw [slots_append, List.getElem?_append_left hlt, List.getElem?_eq_getElem hlt, hfound]
  exact absurd (h.least i _ hplace rfl) (Nat.not_le.2 hlt)

theorem Ledger.Chain.around_super {L : Ledger} {around : List Enclosure} {os : List Occurrence}
    {env : Environment} (hchain : L.Chain os env (slots around)) {distance : Nat}
    (hthis : (slots around)[distance]? = some (.keyword "this"))
    (hsuper : (slots around)[distance + 1]? = some (.keyword "super")) :
    ∃ receiverFrame superFrame outer object base inside,
      env.drop distance = receiverFrame :: superFrame :: outer ∧
      L.frames receiverFrame = some ⟨.receiver object, superFrame :: outer⟩ ∧
      L.frames superFrame = some ⟨.superclass base inside, outer⟩ ∧ os ⊆ inside ∧
      L.Chain os outer ((slots around).drop (distance + 2)) := by
  obtain ⟨receiverFrame, origin, enclosing, hplace, hreceiver, hfits, hrest⟩ := hchain.drop hthis
  have hnext : ((slots around).drop (distance + 1))[0]? = some (.keyword "super") := by
    rw [List.getElem?_drop, Nat.add_zero]
    exact hsuper
  obtain ⟨superFrame, origin', outer, henclosing, hsuperclass, hfits', hrest'⟩ := hrest.drop hnext
  rw [List.drop_zero] at henclosing
  subst henclosing
  rw [List.drop_drop] at hrest'
  cases origin with
  | scope => exact hfits.elim
  | superclass base inside => exact absurd hfits.1 (by simp)
  | receiver object =>
    cases origin' with
    | scope => exact hfits'.elim
    | receiver other => exact absurd (show "super" = "this" from hfits') (by simp)
    | superclass base inside =>
      exact ⟨receiverFrame, superFrame, outer, object, base, inside, hplace, hreceiver, hsuperclass,
        hfits'.2, hrest'⟩

/-- The environments of a class statement and of what stands in it tell how far apart these are. -/
theorem Ledger.Chain.distance_eq {L : Ledger} {inner outer : List Enclosure} {name parent : Token}
    {os ps : List Occurrence} {env : Environment} {distance : Nat} {slot : Slot}
    (h : L.Chain os env
      ((slots (inner ++ .classBody name (some parent) :: outer)).drop (distance + 2)))
    (hslot : (slots (inner ++ .classBody name (some parent) :: outer))[distance + 1]? = some slot)
    (houter : L.Chain ps env (slots outer)) : distance = (slots inner).length := by
  have hlength : (slots (inner ++ .classBody name (some parent) :: outer)).length =
      (slots inner).length + (2 + (slots outer).length) := by
    rw [slots_append, slots_cons, List.length_append, List.length_append]
    rfl
  have hbehind := h.length_eq.symm.trans houter.length_eq
  rw [List.length_drop, hlength] at hbehind
  have hlt := (List.getElem?_eq_some_iff.1 hslot).1
  rw [hlength] at hlt
  omega

namespace Ledger.Accounts

variable {hops : HopTable} {S : Nat → Job → World → Prop} {L : Ledger} {w : World}

/-- The frames further in than the innermost slot for `this` bind no `this`. -/
theorem get_receiver (h : L.Accounts hops S w) {os : List Occurrence} {env : Environment}
    {chain : List Slot} (hchain : L.Chain os env chain) {distance : Nat}
    (hleast : ∀ i slot, chain[i]? = some slot → slot.holds "this" → distance ≤ i) {frame : FrameId}
    {outer : Environment} (hplace : env.drop distance = frame :: outer) {object : Value}
    (hobject : w.frames.getIn frame "this" = some object) : w.frames.get env "this" = some object := by
  induction hchain generalizing distance with
  | global =>
    cases distance with
    | zero =>
      cases hplace
      exact Frames.get_innermost hobject []
    | succ distance =>
      rw [globalEnv, List.drop_succ_cons, List.drop_nil] at hplace
      contradiction
  | @inner frame' origin env slot chain hentry hfits _ ih =>
    cases distance with
    | zero =>
      cases hplace
      exact Frames.get_innermost hobject outer
    | succ distance =>
      have hnone : w.frames.getIn frame' "this" = none := by
        rw [h.keywords frame' _ hentry "this" (.inl rfl)]
        cases origin with
        | scope => rfl
        | superclass base inside => rfl
        | receiver other =>
          cases slot with
          | scope _ => exact hfits.elim
          | keyword word =>
            have hholds : (Slot.keyword word).holds "this" := (show word = "this" from hfits).symm
            exact absurd (hleast 0 _ rfl hholds) (Nat.not_succ_le_zero distance)
      have hrest := ih (fun i slot hslot hholds => Nat.le_of_succ_le_succ (hleast (i + 1) slot hslot hholds))
        hplace
      rw [Frames.get, List.findSome?_cons, hnone]
      exact hrest

end Ledger.Accounts

section Reading

variable {ctx : Context} {hops : HopTable} {w : World} {distance : Nat}

theorem readVariable_at {name : Token} {value : Value} (haddressing : ctx.addressing = .distances hops)
    (hhop : hops[name.index]? = some distance)
    (hvalue : w.frames.getAt ctx.env distance name.lexeme = some value) :
    readVariable ctx name w = .ok value w := by
  have hfound : ctx.find? w.frames name = some value := by
    unfold Context.find?
    rw [haddressing]
    dsimp only
    rw [hhop]
    exact hvalue
  rw [readVariable, hfound]

/-- The receiver is looked for one frame further in than the superclass. -/
theorem readSuper_at {keyword : Token} {base : Class} {id : Nat} {c : Class}
    (haddressing : ctx.addressing = .distances hops)
    (hhop : hops[keyword.index]? = some (distance + 1))
    (hsuper : w.frames.getAt ctx.env (distance + 1) "super" = some (.callable (.cls base)))
    (hthis : w.frames.getAt ctx.env distance "this" = some (.object id c)) (method : Token) :
    readSuper ctx keyword method w = methodOf base method (.object id c) w := by
  have hfound : ctx.findSuper? w.frames keyword = some (.callable (.cls base), .object id c) := by
    unfold Context.findSuper?
    rw [haddressing]
    dsimp only
    rw [hhop, Option.bind_eq_bind, Option.bind_some, hsuper, Nat.add_sub_cancel, hthis]
    rfl
  rw [readSuper, hfound]

end Reading

namespace Session

/-- Dispatch through `super` is lexical. Every use of `super` that the runs of a session evaluate stands in
a method of a class with a superclass, and in no class further in. Some class statement that was executed
before has made the frame for `super` around it, together with the methods of the class. The search for the
method starts from the class that the name of the superclass stood for then, and what is found is bound to
the object that `this` stands for at the same place, one frame further in. -/
theorem super_dispatch_is_lexical {runs : List Run} (h : Executes runs) {r : Run} (hr : r ∈ runs)
    {fuel : Nat} {ctx : Context} {keyword method : Token} {w : World}
    (hmeets : r.Meets (fuel + 1) (.evaluate ctx (.super keyword method)) w) :
    ∃ (inner outer : List Enclosure) (cls parent : Token) (methods : List FunDecl),
      let around := inner ++ .classBody cls (some parent) :: outer
      let inside := FunDecl.occurrencesAll (.classBody cls (some parent) :: outer) methods
      (∀ name superclass, .classBody name superclass ∉ inner) ∧ ⟨.super keyword, around⟩ ∈ inside ∧
      ∃ r₀ ∈ runs, ∃ (fuel₀ : Nat) (ctx₀ : Context) (w₀ : World) (base : Class),
        r₀.Meets fuel₀ (.execute ctx₀ (.classDecl cls (some parent) methods)) w₀ ∧
        w₀.frames.frames.size < w.frames.frames.size ∧
        readVariable ctx₀ parent w₀ = .ok (.callable (.cls base)) w₀ ∧
        (∀ n, ∃ w₁, execute (n + 1) ctx₀ (.classDecl cls (some parent) methods) w₀ = .ok .normal w₁ ∧
          w₁.frames.get ctx₀.env cls.lexeme = some (.callable (.cls ⟨w₀.nextId, cls.lexeme, some base,
            methodTable (w₀.frames.frames.size :: ctx₀.env) methods⟩))) ∧
        ∃ (distance : Nat) (frame : FrameId) (object : Value),
          ctx.env.drop distance = frame :: w₀.frames.frames.size :: ctx₀.env ∧
          r.session.hops[keyword.index]? = some (distance + 1) ∧
          w.frames.get ctx.env "this" = some object ∧
          (∀ receiver, ⟨.this receiver, around⟩ ∈ inside →
            r.session.hops[receiver.index]? = some distance ∧
              ∀ n, evaluate (n + 1) ctx (.this receiver) w = .ok object w) ∧
          Fetches (base.findMethod? method.lexeme) method object w
            (evaluate (fuel + 1) ctx (.super keyword method) w) := by
  obtain ⟨L, hnoted⟩ := h.noted
  obtain ⟨L₀, -, hw, around, hstands⟩ := ((hnoted r hr).met _ _ _ hmeets).started
  obtain ⟨distance, hhop, hthis, hsuper⟩ :=
    (hstands.seated _ (List.mem_singleton_self _)).superclass keyword rfl
  dsimp only at hthis hsuper
  obtain ⟨frame, superFrame, enclosing, object, base, inside, hplace, hreceiver, hsuperclass, hinside,
    houter⟩ := hstands.chain.around_super hthis.found hsuper.found
  -- The frame for `super` is entered with the class statement that has made it.
  have hright := hw.entry_right hsuperclass (by simp)
  obtain ⟨fuel₀, ctx₀, name, parent, methods, outer, w₀, ⟨r₀, hr₀, hmoment⟩,
    ⟨base, hbase, rfl, hentry⟩, hchain₀⟩ := hright.superclass base inside rfl
  cases hentry
  have hmem := hinside (List.mem_singleton_self _)
  obtain ⟨inner, rfl⟩ : .classBody name (some parent) :: outer <:+ around :=
    FunDecl.suffix_aroundAll _ methods _ hmem
  have hdistance := houter.distance_eq hsuper.found hchain₀
  have hobject := hw.keywords frame _ hreceiver "this" (.inl rfl)
  have hthisAt : w.frames.getAt ctx.env distance "this" = some object := by
    rw [Frames.getAt, ← List.head?_drop, hplace]
    exact hobject
  have hsuperAt : w.frames.getAt ctx.env (distance + 1) "super" = some (.callable (.cls base)) := by
    rw [Frames.getAt, ← List.head?_drop, ← List.tail_drop, hplace]
    exact hw.keywords _ _ hsuperclass "super" (.inr rfl)
  refine ⟨inner, outer, name, parent, methods, ?_, hmem, r₀, hr₀, fuel₀, ctx₀, w₀, base, hmoment, ?_,
    hbase, ?_, distance, frame, object, hplace, hhop, ?_, ?_, ?_⟩
  · rw [hdistance] at hthis
    exact hthis.no_class
  · rw [← hw.frames, hsuperclass]
    rfl
  · intro n
    obtain ⟨innermost, rest, henv⟩ := List.exists_cons_of_length_eq_add_one hchain₀.length_eq
    have hmem₀ : innermost ∈ ctx₀.env := henv ▸ List.mem_cons_self ..
    have hlt := hright.outward innermost hmem₀
    exact (Class.MadeIn.derived hbase).declared henv hlt n
  · exact hw.get_receiver hstands.chain hthis.least hplace hobject
  · intro receiver hmem
    obtain ⟨hword, other, hhop', hinnermost⟩ := (hright.seated base _ rfl _ hmem).receiver receiver rfl
    cases hthis.unique hinnermost
    refine ⟨hhop', fun n => ?_⟩
    rw [← hword] at hthisAt
    exact readVariable_at hstands.addressing hhop' hthisAt
  · obtain ⟨id, c, rfl, -, -⟩ := (hw.entry_right hreceiver (by simp)).receiver object rfl
    change Fetches _ _ _ _ (readSuper ctx keyword method w)
    rw [readSuper_at hstands.addressing hhop hsuperAt hthisAt]
    exact methodOf_fetches base method (.object id c) w

/-- The initializer of the subclass, in the frame of its call. -/
theorem super_dispatch_is_lexical_delegating :
    delegatingRun.session.hops[20]? = some 2 ∧
    ∃ ctx parent w base, w.frames.frames.size = 1 ∧
      readVariable ctx parent w = .ok (.callable (.cls base)) w ∧
      Fetches (base.findMethod? "init") ⟨.identifier, "init", 1, 22, .nil⟩ (.object 0 overridingClass)
        delegatingWorld (evaluate 13 delegatingContext
          (.super ⟨.kwSuper, "super", 1, 20, .nil⟩ ⟨.identifier, "init", 1, 22, .nil⟩)
          delegatingWorld) := by
  obtain ⟨inner, outer, cls, parent, methods, -, -, r₀, -, fuel₀, ctx₀, w₀, base, -, -, hbase, -,
    distance, frame, object, hplace, hhop, hobject, -, hfetches⟩ :=
    super_dispatch_is_lexical executes_delegatingRun (List.mem_singleton_self _)
      (delegatingRun_meets.next (.first rfl))
  have hhops : delegatingRun.session.hops[20]? = some 2 := rfl
  cases hhops.symm.trans hhop
  cases hobject
  have hsize : w₀.frames.frames.size = 1 := (List.cons.inj (List.cons.inj hplace).2).1.symm
  exact ⟨hhops, ctx₀, parent, w₀, base, hsize, hbase, hfetches⟩

end Session

end Lox
