import SourceOptimizer.Proofs.Phrases

/-! Calls, sums and choices, and expressions as statements. -/
namespace SourceOptimizer.Grammar

open Token

variable {ps : List Lexeme} {ts r m : List Token} {ok : Tree → Prop} {w : String} {tok : Token} {a : Arguments}
  {l line n : Nat} {st : Option (List Token)} {items : List (Item Tree)} {acc t : Tree} {us : List Tree}

theorem Follows.length_eq (h : Follows ps ts (some r)) :
    ps.length + r.length = ts.length := by
  generalize hst : some r = st at h
  induction h with
  | done =>
    cases hst
    simp
  | broken | foreign => cases hst
  | next _ _ ih =>
    have := ih hst
    simp only [List.length_cons]
    omega

/-! ## Calls -/

section Calls
variable {rules : Rules} {signs : List String}

def closesPrimary (signs : List String) : Prop := "." ∉ signs ∧ "(" ∉ signs ∧ "[" ∉ signs

theorem Reads.primary (hs : closesPrimary signs)
    (h : Reads (atom rules) ps ok signs) : Reads (Grammar.primary rules) ps ok signs := by
  intro ts st hf hend t r hr
  obtain ⟨_, _, -, hr⟩ := lineHere_bind hr
  refine h.followed hf hend (ended hr fun u tok m hk => ?_)
  rw [bind_peek, hk.isSign hs.1, hk.isSign hs.2.1, hk.isSign hs.2.2]
  rfl

theorem trailers_none (hs : closesPrimary signs) (hend : Ends signs m) (line n : Nat) (acc : Tree) :
    trailers rules line n acc m = .ok (acc, m) := by
  obtain ⟨tok, m, rfl, hk⟩ := hend
  cases n with
  | zero => rfl
  | succ n =>
    rw [trailers, bind_accept, hk.isSign hs.1]
    simp only [Bool.false_eq_true, ↓reduceIte]
    rw [bind_atSign, hk.isSign hs.2.1]
    simp only [Bool.false_eq_true, ↓reduceIte]
    rw [bind_accept, hk.isSign hs.2.2]
    rfl

theorem reads_call {ok : Arguments → Prop} (hw : isKeyword w = false)
    (hs : closesPrimary signs)
    (h : ∀ {l ts st a r}, Follows (ps ++ [.sign ")"]) ts st → callBrackets rules (⟨.sign "(", l⟩ :: ts) = .ok (a, r) →
      st = some r ∧ ok a) :
    Reads (primary rules) (.word w :: .sign "(" :: ps ++ [.sign ")"])
      (fun t => ∃ l l' a, ok a ∧ t = node l .call [nameNode l' w, .seq a.positional, .seq a.keywords]) signs := by
  intro ts st hf hend t r hr
  cases hf with
  | broken => cases hr
  | @next _ _ k l ts _ hk hf =>
    obtain rfl := hk
    have hname : Token.name? ⟨.word w, l⟩ = some w := by simp [Token.name?, hw]
    have hatom : atom rules (⟨.word w, l⟩ :: ts) = .ok (nameNode l w, ts) := by
      rw [atom, bind_peek, hname]
      rfl
    rw [primary, bind_lineHere, bind_of_ok hatom] at hr
    cases hf with
    | broken =>
      cases hr
      exact .inr ⟨rfl, ⟨_, _, _, rfl⟩, by rintro ⟨_, _, _, heq⟩; cases heq⟩
    | @next _ _ k l' ts _ hk hf =>
      obtain rfl := hk
      rw [bind_peek] at hr
      obtain ⟨_, _, hget, hr⟩ := bind_ok.mp hr
      cases hget
      rw [trailers, bind_accept] at hr
      obtain ⟨_, _, hsign, hr⟩ := bind_ok.mp hr
      cases hsign
      obtain ⟨a, m, ha, hr⟩ := bind_ok.mp hr
      obtain ⟨rfl, hok⟩ := h hf ha
      rw [trailers_none hs (hend m rfl)] at hr
      cases hr
      exact .inl ⟨rfl, l, l, a, hok, rfl⟩

theorem argument_named (hopen : Opening tok ts)
    (hr : argument rules {} (tok :: ts) = .ok (a, m)) :
    ∃ v, rules .named (tok :: ts) = .ok (v, m) ∧ a = { positional := [v] } := by
  rw [argument, bind_lineHere, bind_accept, hopen.sign "**" (by decide)] at hr
  simp only [Bool.false_eq_true, ↓reduceIte] at hr
  rw [bind_accept, hopen.sign "*" (by decide)] at hr
  simp only [Bool.false_eq_true, ↓reduceIte] at hr
  rw [bind_of_ok hopen.assign] at hr
  obtain ⟨v, m', hv, hr⟩ := bind_ok.mp hr
  cases hr
  exact ⟨v, hv, rfl⟩

theorem callBrackets_empty
    (hbad : RefusesBad (rules .named)) (hf : Follows ([] ++ [.sign ")"]) ts st)
    (hr : callBrackets rules (⟨.sign "(", l⟩ :: ts) = .ok (a, r)) : st = some r ∧ a = {} := by
  rw [callBrackets, bind_lineHere, bind_expect (isSign_self _ _)] at hr
  cases hf with
  | broken =>
    rw [bind_accept] at hr
    obtain ⟨_, _, harg, -⟩ := bind_ok.mp hr
    obtain ⟨v, hv, -⟩ := argument_named (.other _ _ (by simp) (by simp) (by simp)) harg
    exact (hbad hv).elim
  | next hk hf =>
    obtain rfl := hk
    cases hf
    cases hr
    exact ⟨rfl, rfl⟩

theorem callBrackets_single (h : Reads (rules .named) ps ok closers)
    (ho : opens ps = true)
    (hf : Follows (ps ++ [.sign ")"]) ts st) (hr : callBrackets rules (⟨.sign "(", l⟩ :: ts) = .ok (a, r)) :
    st = some r ∧ ∃ v, ok v ∧ a = { positional := [v] } := by
  obtain ⟨tok, ts, rfl, hopen⟩ := opening_before hf ho (ends_close (by decide)) (by decide)
  rw [callBrackets, bind_lineHere, bind_expect (isSign_self _ _),
    bind_accept, hopen.sign ")" (by decide)] at hr
  obtain ⟨_, m, harg, hr⟩ := bind_ok.mp hr
  obtain ⟨v, hv, rfl⟩ := argument_named hopen harg
  have hafter := h.before (ends_close (by decide)) hf hv
  obtain ⟨tok, m, rfl, hk⟩ : Ends closers m :=
    hafter.elim (fun hf => ends_close (by decide) hf.2) fun hbad => hbad.2.ends
  -- no generator shares the brackets, and no further argument follows
  have hcomma : tok.isSign "," = false := by
    obtain ⟨-, hf⟩ | ⟨-, _, _, _, heq⟩ := hafter
    · exact isSign_next hf (by simp) (by simp) (by decide)
    · cases heq
      rfl
  have hclose : (expect ")" >>= fun _ => pure ({ positional := [v] } : Arguments)) (tok :: m) = .ok (a, r) := by
    cases v with
    | node t k ps =>
      dsimp only at hr
      rw [bind_of_ok (atClause_ends hk m), Bool.and_false] at hr
      simp only [Bool.false_eq_true, ↓reduceIte] at hr
      rw [bind_accept, hcomma] at hr
      exact hr
    | _ =>
      dsimp only at hr
      rw [bind_accept, hcomma] at hr
      exact hr
  obtain ⟨_, he, rfl⟩ := bind_pure_ok.mp hclose
  obtain ⟨hok, hf⟩ | ⟨-, hbad⟩ := hafter
  · obtain ⟨tok', heq, htok⟩ := expect_ok he
    cases heq
    exact ⟨closed hf htok, v, hok, rfl⟩
  · exact absurd he (expect_bad hbad)

end Calls

/-! ## Sums and choices -/

section Chains
variable {ops : List BinaryOp} {operand : Rule Tree} {op : BinaryOp} {signs : List String}

def joined (line : Nat) (op : BinaryOp) (first : Tree) (rest : List Tree) : Tree :=
  rest.foldl (fun acc u => node line (.binOp op) [acc, u]) first

def operated (op : BinaryOp) (items : List (Item Tree)) : List Lexeme :=
  items.flatMap fun it => .sign op.sign :: it.lexemes

theorem ends_operated
    (hf : Follows (operated op items) ts st) (hend : ∀ r, st = some r → Ends signs r) : Ends (op.sign :: signs) ts := by
  cases items with
  | nil =>
    cases hf
    obtain ⟨tok, ts', rfl, hk⟩ := hend _ rfl
    exact ⟨tok, ts', rfl, hk.mono fun _ hs => List.mem_cons_of_mem _ hs⟩
  | cons it items =>
    cases hf with
    | broken => exact ⟨_, _, rfl, trivial⟩
    | next hk _ =>
      obtain rfl := hk
      exact ⟨_, _, rfl, List.mem_cons_self⟩

def Distinguishes (ops : List BinaryOp) (op : BinaryOp) : Prop :=
  ∀ l, ops.find? (fun o => Token.isSign o.sign ⟨.sign op.sign, l⟩) = some op

theorem find_ends (hops : ∀ o ∈ ops, o.sign ∉ signs) (hk : EndsWith signs tok.kind) :
    ops.find? (fun o => tok.isSign o.sign) = none := by
  rw [List.find?_eq_none]
  intro o ho
  rw [hk.isSign (hops o ho)]
  decide

theorem joinLeft_ends (hops : ∀ o ∈ ops, o.sign ∉ signs)
    (hend : Ends signs ts) (hr : joinLeft line ops operand n acc ts = .ok (t, r)) : t = acc ∧ r = ts := by
  obtain ⟨tok, ts, rfl, hk⟩ := hend
  cases n with
  | zero =>
    cases hr
    exact ⟨rfl, rfl⟩
  | succ n =>
    rw [joinLeft, bind_peek, find_ends hops hk] at hr
    cases hr
    exact ⟨rfl, rfl⟩

/-- The rounds of a level go through the items one by one; they do not run out, as each takes a token. -/
theorem joinLeft_reads (hop : Distinguishes ops op) (hops : ∀ o ∈ ops, o.sign ∉ signs)
    (h : ∀ it ∈ items, Reads operand it.lexemes it.ok (op.sign :: signs)) (hf : Follows (operated op items) ts st)
    (hend : ∀ r, st = some r → Ends signs r) (hn : ts.length < n)
    (hr : joinLeft line ops operand n acc ts = .ok (t, r)) :
    (st = some r ∧ ∃ us, List.Forall₂ (fun it u => it.ok u) items us ∧ t = joined line op acc us) ∨
      st = none ∧ Bad r := by
  induction n generalizing items acc ts with
  | zero => omega
  | succ n ih =>
    cases items with
    | nil =>
      cases hf
      obtain ⟨rfl, rfl⟩ := joinLeft_ends hops (hend _ rfl) hr
      exact .inl ⟨rfl, [], .nil, rfl⟩
    | cons it items =>
      cases hf with
      | broken =>
        obtain ⟨rfl, rfl⟩ := joinLeft_ends hops bad_cons.ends hr
        exact .inr ⟨rfl, bad_cons⟩
      | @next _ _ k l ts _ hk hf =>
        obtain rfl := hk
        rw [joinLeft, bind_peek, hop l] at hr
        obtain ⟨_, _, hskip, hr⟩ := bind_ok.mp hr
        cases hskip
        obtain ⟨u, m, hu, hr⟩ := bind_ok.mp hr
        have hitem := h it List.mem_cons_self
        rcases hf.of_append with ⟨hst, hnone⟩ | ⟨mid, hfirst, hrest⟩
        · obtain ⟨hsome, -⟩ | ⟨-, hbad, -⟩ := hitem hnone (fun _ h => by cases h) hu
          · cases hsome
          · obtain ⟨-, rfl⟩ := joinLeft_ends hops hbad.ends hr
            exact .inr ⟨hst, hbad⟩
        · obtain ⟨heq, hok⟩ | ⟨hnone, -⟩ :=
            hitem hfirst (fun r hr => Option.some.inj hr ▸ ends_operated hrest hend) hu
          · cases heq
            have hlength := Follows.length_eq hfirst
            obtain ⟨hst, us, hall, rfl⟩ | hbad :=
              ih (fun it hit => h it (List.mem_cons_of_mem _ hit)) hrest (by simp at hn; omega) hr
            · exact .inl ⟨hst, u :: us, .cons hok hall, rfl⟩
            · exact .inr hbad
          · cases hnone

theorem binaryLevel_ok (hr : binaryLevel ops operand ts = .ok (t, r)) :
    ∃ line first m, operand ts = .ok (first, m) ∧ joinLeft line ops operand (m.length + 1) first m = .ok (t, r) := by
  obtain ⟨start, _, -, hr⟩ := lineHere_bind hr
  obtain ⟨first, m, hfirst, hr⟩ := bind_ok.mp hr
  refine ⟨start.line, first, m, hfirst, ?_⟩
  obtain ⟨tok, _, hpeek, hr⟩ := bind_ok.mp hr
  obtain ⟨m, rfl, rfl⟩ := peek_ok hpeek
  split at hr
  · exact hr
  · rename_i hany
    have hfind : ops.find? (fun o => tok.isSign o.sign) = none := by
      simpa using hany
    rw [joinLeft, bind_peek, hfind]
    exact hr

theorem reads_joined (hop : Distinguishes ops op) (hops : ∀ o ∈ ops, o.sign ∉ signs) {it : Item Tree}
    (h : ∀ it' ∈ it :: items, Reads operand it'.lexemes it'.ok (op.sign :: signs))
    (ho : opens it.lexemes = true) :
    Reads (binaryLevel ops operand) (it.lexemes ++ operated op items)
      (fun t => ∃ l first rest, it.ok first ∧ List.Forall₂ (fun it u => it.ok u) items rest ∧ t = joined l op first rest)
      signs := by
  intro ts st hf hend t r hr
  obtain ⟨line, first, m, hfirst, hr⟩ := binaryLevel_ok hr
  have hit := h it List.mem_cons_self
  have hts : ¬ Bad ts := by
    rintro ⟨cause, l, ts, rfl⟩
    exact hit.bad ho hfirst
  rcases hf.of_append with ⟨hst, hnone⟩ | ⟨mid, h1, h2⟩
  · obtain ⟨hsome, -⟩ | ⟨-, hbad, -⟩ := hit hnone (fun _ h => by cases h) hfirst
    · cases hsome
    · obtain ⟨-, rfl⟩ := joinLeft_ends hops hbad.ends hr
      exact .inr ⟨hst, hbad, hts⟩
  · obtain ⟨heq, hok⟩ | ⟨hnone, -⟩ := hit h1 (fun r hr => Option.some.inj hr ▸ ends_operated h2 hend) hfirst
    · cases heq
      obtain ⟨hst, us, hall, rfl⟩ | ⟨hst, hbad⟩ :=
        joinLeft_reads hop hops (fun it hit => h it (List.mem_cons_of_mem _ hit)) h2 hend (Nat.lt_succ_self _) hr
      · exact .inl ⟨hst, line, first, us, hok, hall, rfl⟩
      · exact .inr ⟨hst, hbad, hts⟩
    · cases hnone

end Chains

/-! ## Rules within a depth -/

section Depths
variable {signs : List String}

theorem reads_within {goal : Goal} (h : ∀ depth, Reads (ruleOf (rulesWithin depth) goal) ps ok signs) (depth : Nat) :
    Reads (rulesWithin depth goal) ps ok signs := by
  cases depth with
  | zero =>
    intro ts st _ _ t r hr
    cases hr
  | succ depth => exact h depth

theorem factor_of_atom (ho : opens ps = true) (hs : ":=" ∉ signs ∧ "=" ∉ signs) (hp : closesPrimary signs)
    (hpow : "**" ∉ signs) (hminus : ∀ qs, ps ≠ .sign "-" :: qs)
    (h : Reads (atom rules) ps ok signs) : Reads (factor rules) ps ok signs :=
  .factor ho hs hminus (.power ho hs hpow (.primary hp h))

theorem expression_of_bitOr (ho : opens ps = true) (h : ∀ depth, Reads (bitOr (rulesWithin depth)) ps ok closers)
    (depth : Nat) :
    Reads (rulesWithin depth .expression) ps ok closers ∧ Reads (rulesWithin depth .named) ps ok closers := by
  have hexpression : ∀ depth, Reads (rulesWithin depth .expression) ps ok closers :=
    reads_within fun depth => .expression_of_bitOr ho (h depth)
  have hnamed : ∀ depth, Reads (rulesWithin depth .named) ps ok closers :=
    reads_within fun depth => .named ho (by decide) (hexpression depth)
  exact ⟨hexpression depth, hnamed depth⟩

end Depths

/-! ## Expressions as statements -/

section Statements
variable {rules : Rules}

theorem moreItems_none {α : Type} {closes : Rule Bool} {item : Rule α} (ts : List Token)
    (h : tok.isSign "," = false) : moreItems closes item (tok :: ts) = .ok ([], tok :: ts) := by
  refine many_none ?_
  rw [bind_atSign, h]
  rfl

theorem reads_sequence (ho : opens ps = true) (h : Reads (rules .expression) ps ok []) :
    Reads (sequence rules) ps ok [] := by
  intro ts st hf hend t r hr
  refine (Reads.starredExpression ho (by simp) h).followed hf hend ?_
  obtain ⟨_, _, -, hr⟩ := lineHere_bind hr
  obtain ⟨⟨items, comma⟩, m, hitems, hr⟩ := bind_ok.mp hr
  obtain ⟨first, m', hfirst, hitems⟩ := bind_ok.mp hitems
  refine ⟨first, m', hfirst, fun ⟨tok, m'', heq, hk⟩ => ?_⟩
  subst heq
  obtain ⟨_, _, hget, hitems⟩ := bind_ok.mp hitems
  cases hget
  rw [bind_of_ok (moreItems_none m'' (hk.isSign (by simp)))] at hitems
  cases hitems
  simp only [bne_self_eq_false, Bool.false_and, Bool.false_eq_true, ↓reduceIte] at hr
  cases hr
  exact ⟨rfl, rfl⟩

theorem augmentedSign_ends (hk : EndsWith [] tok.kind) (ts : List Token) :
    augmentedSign? (tok :: ts) = .ok (none, tok :: ts) := by
  have hfind : BinaryOp.all.find? (fun op => tok.isSign (op.sign ++ "=")) = none := by
    rw [List.find?_eq_none]
    simp [hk.isSign]
  rw [augmentedSign?, bind_peek, hfind]
  rfl

theorem reads_expressionStatement (ho : opens ps = true) (h : Reads (rules .sequence) ps ok []) :
    Reads (expressionStatement rules) ps (fun t => ∃ l v, t = node l .exprStmt [v] ∧ ok v) [] := by
  intro ts st hf hend t r hr
  obtain ⟨tok, ts, rfl, hopen⟩ := opening hf ho hend (by simp)
  have hyield := hopen.word "yield" (by decide) (by decide)
  rw [expressionStatement, bind_peek] at hr
  obtain ⟨v, m, hv, hr⟩ := bind_ok.mp hr
  rw [assigned, bind_atWord, hyield] at hv
  have hread := h hf hend hv
  obtain ⟨next, m, rfl, hk⟩ : Ends [] m := by
    obtain ⟨rfl, -⟩ | ⟨-, hbad, -⟩ := hread
    · exact hend m rfl
    · exact hbad.ends
  simp only [hyield, Bool.false_eq_true, ↓reduceIte] at hr
  rw [bind_accept, hk.isSign (by simp)] at hr
  simp only [Bool.false_eq_true, ↓reduceIte] at hr
  rw [bind_atSign, hk.isSign (by simp)] at hr
  simp only [Bool.false_eq_true, ↓reduceIte] at hr
  rw [bind_of_ok (augmentedSign_ends hk m)] at hr
  cases hr
  exact hread.imp (fun ⟨hst, hok⟩ => ⟨hst, tok.line, v, rfl, hok⟩) id

theorem Opening.kind_ne (h : Opening tok ts) (hw : w ∈ keywords)
    (hne : w ∉ ["True", "False", "None"]) : tok.kind ≠ .word w := by
  intro heq
  have hword := h.word w hw hne
  rw [Token.isWord, heq] at hword
  simp at hword

theorem reads_simpleStatement (ho : opens ps = true) (h : Reads (rules .sequence) ps ok []) :
    Reads (simpleStatement rules) ps (fun t => ∃ l v, t = node l .exprStmt [v] ∧ ok v) [] := by
  refine (reads_expressionStatement ho h).opened ho (by simp) fun {tok ts t r} hopen hr => ?_
  rw [simpleStatement, bind_peek] at hr
  have hkind {w : String} (hw : w ∈ keywords) (hne : w ∉ ["True", "False", "None"]) := hopen.kind_ne hw hne
  generalize tok.kind = k at hr hkind
  split at hr
  case h_12 => exact ⟨t, r, hr, fun _ => ⟨rfl, rfl⟩⟩
  all_goals exact absurd rfl (hkind (by decide) (by decide))

theorem simpleStatements_ok (ho : opens ps = true) (h : Reads (rules .sequence) ps ok []) (hf : Follows ps ts st)
    (hend : ∀ r, st = some r → Ends [] r)
    (hr : simpleStatements rules ts = .ok (us, r)) : ∃ l v, ok v ∧ us = [node l .exprStmt [v]] := by
  obtain ⟨first, m, hfirst, hr⟩ := bind_ok.mp hr
  have hread := reads_simpleStatement ho h hf hend hfirst
  obtain ⟨tok, m, rfl, hk⟩ : Ends [] m := by
    obtain ⟨rfl, -⟩ | ⟨-, hbad, -⟩ := hread
    · exact hend m rfl
    · exact hbad.ends
  have hmany : many (do
      if ← accept ";" then
        if ← atNewline then return none else return some (← simpleStatement rules)
      else return none) (tok :: m) = .ok ([], tok :: m) := by
    refine many_none ?_
    rw [bind_accept, hk.isSign (by simp)]
    rfl
  rw [bind_of_ok hmany] at hr
  obtain ⟨_, hnewline, rfl⟩ := bind_pure_ok.mp hr
  obtain ⟨-, l, v, rfl, hok⟩ | ⟨-, ⟨_, _, _, heq⟩, -⟩ := hread
  · exact ⟨l, v, hok, rfl⟩
  · cases heq
    cases hnewline

theorem statement_ok (ho : opens ps = true) (h : Reads (rules .sequence) ps ok []) (hf : Follows ps ts st)
    (hend : ∀ r, st = some r → Ends [] r)
    (hr : statement rules ts = .ok (us, r)) : ∃ l v, ok v ∧ us = [node l .exprStmt [v]] := by
  obtain ⟨tok, ts, rfl, hopen⟩ := opening hf ho hend (by simp)
  rw [statement, bind_peek] at hr
  have hmatch : tok.kind ≠ .word "match" := by
    intro heq
    have hword := hopen.noMatch
    rw [Token.isWord, heq] at hword
    simp at hword
  have hat : tok.kind ≠ .sign "@" := by
    intro heq
    have hsign := hopen.sign "@" (by decide)
    rw [Token.isSign, heq] at hsign
    simp at hsign
  have hkind {w : String} (hw : w ∈ keywords) (hne : w ∉ ["True", "False", "None"]) := hopen.kind_ne hw hne
  generalize tok.kind = k at hr hkind hmatch hat
  split at hr
  case h_11 => exact simpleStatements_ok ho h hf hend hr
  case h_10 => exact absurd rfl hmatch
  case h_8 => exact absurd rfl hat
  all_goals exact absurd rfl (hkind (by decide) (by decide))

theorem kind_of_follows (ho : opens ps = true)
    (hf : Follows ps (tok :: ts) st) : tok.kind ≠ .dedent ∧ tok.kind ≠ .finish := by
  cases hf with
  | done => cases ho
  | broken | foreign => exact ⟨by simp, by simp⟩
  | @next a _ k _ _ _ hk _ =>
    cases a with
    | word | sign =>
      obtain rfl := hk
      exact ⟨by simp, by simp⟩
    | number | text | bytes =>
      obtain ⟨_, rfl, -⟩ := hk
      exact ⟨by simp, by simp⟩
    | foreign => exact hk.elim

theorem program_ok (ho : opens ps = true) (h : Reads (rules .sequence) ps ok []) (hf : Follows ps ts st)
    (hend : ∀ r, st = some r → Ends [] r)
    (hr : program rules ts = .ok (t, r)) :
    ∃ l v rest, ok v ∧ t = .node {} .moduleDef [.seq (node l .exprStmt [v] :: rest)] := by
  obtain ⟨body, m, hbody, hr⟩ := bind_ok.mp hr
  obtain ⟨groups, hgroups, rfl⟩ := bind_pure_ok.mp hbody
  obtain ⟨tok, ts, rfl, -⟩ := opening hf ho hend (by simp)
  obtain ⟨hdedent, hfinish⟩ := kind_of_follows ho hf
  obtain ⟨group, m', hgroup, hgroups⟩ := bind_ok.mp hgroups
  rw [bind_peek] at hgroup
  generalize tok.kind = k at hgroup hdedent hfinish
  split at hgroup
  · exact absurd rfl hdedent
  · exact absurd rfl hfinish
  · obtain ⟨us, _, hus, hsome⟩ := bind_ok.mp hgroup
    cases hsome
    obtain ⟨l, v, hok, rfl⟩ := statement_ok ho h hf hend hus
    obtain ⟨_, _, hget, hgroups⟩ := bind_ok.mp hgroups
    obtain ⟨others, -, rfl⟩ := bind_pure_ok.mp hgroups
    obtain ⟨last, _, -, hr⟩ := bind_ok.mp hr
    generalize last.kind = k at hr
    split at hr
    · cases hr
      exact ⟨l, v, others.flatten, hok, rfl⟩
    · exact absurd hr refuse_ne

end Statements
end SourceOptimizer.Grammar
