import SourceOptimizer.Grammar.Program
import SourceOptimizer.Proofs.Spelling

/-! What the rules of expressions make of the tokens of a spelling: a rule that succeeds has come to the end
of the spelling and has made the tree of it. -/
namespace SourceOptimizer.Grammar

open Token

variable {α β : Type} {f : α → Rule β} {ts r m : List Token} {a b : α} {x : Rule (Option α)} {s c w : String}
  {k : TokenKind} {cause : SyntaxCause} {l : Nat} {signs : List String} {rule inner operand : Rule Tree}
  {ps qs : List Lexeme} {ok : Tree → Prop} {tok : Token} {rules : Rules} {st : Option (List Token)} {u : Unit}
  {t first : Tree} {entries : List Entry}

/-! ## Steps of rules -/

theorem bind_ok {x : Rule α} {b : β} :
    (x >>= f) ts = .ok (b, r) ↔ ∃ a m, x ts = .ok (a, m) ∧ f a m = .ok (b, r) := by
  show (x ts >>= fun p => f p.1 p.2) = _ ↔ _
  cases x ts with
  | error e =>
    constructor
    · intro h
      cases h
    · rintro ⟨_, _, h, -⟩
      cases h
  | ok p =>
    constructor
    · exact fun h => ⟨p.1, p.2, rfl, h⟩
    · rintro ⟨a, m, h, hf⟩
      cases h
      exact hf

theorem pure_ok : (pure a : Rule α) ts = .ok (b, r) ↔ a = b ∧ ts = r := by
  constructor
  · intro h
    cases h
    exact ⟨rfl, rfl⟩
  · rintro ⟨rfl, rfl⟩
    rfl

theorem bind_pure_ok {x : Rule α} {g : α → β} {b : β} :
    (x >>= fun a => pure (g a)) ts = .ok (b, r) ↔ ∃ a, x ts = .ok (a, r) ∧ g a = b := by
  simp only [bind_ok, pure_ok]
  grind

theorem refuse_ne : (refuse : Rule α) ts ≠ .ok (a, r) := by
  intro h
  cases h

theorem bind_of_ok {x : Rule α} (h : x ts = .ok (a, m)) :
    (x >>= f) ts = f a m := by
  show (x ts >>= fun p => f p.1 p.2) = _
  rw [h]
  rfl

section Step

theorem bind_peek {f : Token → Rule β} : (peek >>= f) (tok :: ts) = f tok (tok :: ts) := rfl

theorem bind_lineHere {f : Nat → Rule β} : (lineHere >>= f) (tok :: ts) = f tok.line (tok :: ts) := rfl

theorem bind_skip {f : Unit → Rule β} : (skip >>= f) (tok :: ts) = f () ts := rfl

variable {f : Bool → Rule β}

theorem bind_atSign : (atSign s >>= f) (tok :: ts) = f (tok.isSign s) (tok :: ts) := rfl

theorem bind_atWord : (atWord w >>= f) (tok :: ts) = f (tok.isWord w) (tok :: ts) := rfl

theorem bind_accept :
    (accept s >>= f) (tok :: ts) = f (tok.isSign s) (if tok.isSign s then ts else tok :: ts) := by
  apply bind_of_ok
  rw [accept, bind_atSign]
  cases tok.isSign s <;> rfl

theorem bind_acceptWord :
    (acceptWord w >>= f) (tok :: ts) = f (tok.isWord w) (if tok.isWord w then ts else tok :: ts) := by
  apply bind_of_ok
  rw [acceptWord, bind_atWord]
  cases tok.isWord w <;> rfl

end Step

theorem peek_ok {t : Token} (h : peek ts = .ok (t, r)) : ∃ ts', ts = t :: ts' ∧ r = ts := by
  cases ts with
  | nil => cases h
  | cons a ts =>
    cases h
    exact ⟨ts, rfl, rfl⟩

theorem lineHere_bind {f : Nat → Rule α} (h : (lineHere >>= f) ts = .ok (b, r)) :
    ∃ t ts', ts = t :: ts' ∧ f t.line ts = .ok (b, r) := by
  cases ts with
  | nil => cases h
  | cons t ts => exact ⟨t, ts, rfl, h⟩

theorem many_none (h : x ts = .ok (none, m)) :
    many x ts = .ok ([], m) := by
  rw [many, bind_of_ok h]
  rfl

theorem atNameThen_cons (s : String) (t : Token) (ts : List Token) :
    atNameThen s (t :: ts) = .ok (t.name?.isSome && ((ts.head?).map (·.isSign s)).getD false, t :: ts) := by
  cases ts <;> rfl

/-! ## Ends of spellings -/

/-- A token that ends a spelling: the end of a line, a text that is no token, or one of these signs. -/
def EndsWith (signs : List String) : TokenKind → Prop
  | .newline => True
  | .bad _ => True
  | .sign s => s ∈ signs
  | _ => False

def Ends (signs : List String) (ts : List Token) : Prop := ∃ t ts', ts = t :: ts' ∧ EndsWith signs t.kind

namespace EndsWith
variable {t : Token}

theorem isSign (h : EndsWith signs t.kind) (hs : s ∉ signs) : t.isSign s = false := by
  rw [Token.isSign]
  split
  case h_1 u heq =>
    rw [heq] at h
    have hne : u ≠ s := by
      rintro rfl
      exact hs h
    simp [hne]
  case h_2 => rfl

theorem isWord (h : EndsWith signs t.kind) (w : String) : t.isWord w = false := by
  rw [Token.isWord]
  split
  case h_1 u heq =>
    rw [heq] at h
    exact h.elim
  case h_2 => rfl

theorem mono {more : List String} (hsub : ∀ s ∈ signs, s ∈ more) (h : EndsWith signs k) :
    EndsWith more k := by
  cases k with
  | sign s => exact hsub s h
  | newline => trivial
  | bad _ => trivial
  | _ => exact h.elim

end EndsWith

def Bad (ts : List Token) : Prop := ∃ cause l ts', ts = ⟨.bad cause, l⟩ :: ts'

theorem bad_cons : Bad (⟨.bad cause, l⟩ :: ts) := ⟨_, _, _, rfl⟩

theorem Bad.ends (h : Bad ts) : Ends signs ts := by
  obtain ⟨cause, l, ts', rfl⟩ := h
  exact ⟨_, _, rfl, trivial⟩

/-- A rule that succeeds on the tokens of a spelling comes to its end, and makes of it what it should; or it stops
where they break off. -/
def Reads {α : Type} (rule : Rule α) (ps : List Lexeme) (ok : α → Prop) (signs : List String) : Prop :=
  ∀ ⦃ts st⦄, Follows ps ts st → (∀ r, st = some r → Ends signs r) → ∀ ⦃t r⦄, rule ts = .ok (t, r) →
    st = some r ∧ ok t ∨ st = none ∧ Bad r ∧ ¬ Bad ts

namespace Reads

theorem mono {fewer : List String}
    (h : Reads rule ps ok signs) (hsub : ∀ s ∈ fewer, s ∈ signs) : Reads rule ps ok fewer := by
  intro ts st hf hend t r hr
  refine h hf (fun r hst => ?_) hr
  obtain ⟨t, ts', heq, hk⟩ := hend r hst
  exact ⟨t, ts', heq, hk.mono hsub⟩

theorem imp {ok' : Tree → Prop}
    (h : Reads rule ps ok signs) (himp : ∀ t, ok t → ok' t) : Reads rule ps ok' signs := by
  intro ts st hf hend t r hr
  exact (h hf hend hr).imp (And.imp_right (himp t)) id

/-- A rule that is another one where nothing of its own follows. -/
theorem followed (h : Reads inner ps ok signs) (hf : Follows ps ts st) (hend : ∀ r, st = some r → Ends signs r)
    (hr : ∃ u m, inner ts = .ok (u, m) ∧ (Ends signs m → t = u ∧ r = m)) :
    st = some r ∧ ok t ∨ st = none ∧ Bad r ∧ ¬ Bad ts := by
  obtain ⟨u, m, hin, hthen⟩ := hr
  obtain ⟨rfl, hu⟩ | ⟨hst, hbad, hts⟩ := h hf hend hin
  · obtain ⟨rfl, rfl⟩ := hthen (hend m rfl)
    exact .inl ⟨rfl, hu⟩
  · obtain ⟨rfl, rfl⟩ := hthen hbad.ends
    exact .inr ⟨hst, hbad, hts⟩

end Reads

theorem ended {after : Tree → Rule Tree} (hr : (inner >>= after) ts = .ok (t, r))
    (hafter : ∀ u tok m, EndsWith signs tok.kind → after u (tok :: m) = .ok (u, tok :: m)) :
    ∃ u m, inner ts = .ok (u, m) ∧ (Ends signs m → t = u ∧ r = m) := by
  obtain ⟨u, m, hu, hr⟩ := bind_ok.mp hr
  refine ⟨u, m, hu, ?_⟩
  rintro ⟨tok, m, rfl, hk⟩
  cases hr.symm.trans (hafter u tok m hk)
  exact ⟨rfl, rfl⟩

/-! ## Operators that do not follow -/

theorem Reads.binaryLevel {ops : List BinaryOp} (h : Reads operand ps ok signs) (hops : ∀ op ∈ ops, op.sign ∉ signs) :
    Reads (Grammar.binaryLevel ops operand) ps ok signs := by
  intro ts st hf hend t r hr
  obtain ⟨_, _, -, hr⟩ := lineHere_bind hr
  refine h.followed hf hend (ended hr fun u tok m hk => ?_)
  rw [bind_peek]
  have hany : (ops.any fun op => tok.isSign op.sign) = false := by
    rw [List.any_eq_false]
    intro op hop
    rw [hk.isSign (hops op hop)]
    decide
  rw [hany]
  rfl

theorem compareSign_ends (hs : ∀ s ∈ signs, s ∉ ["==", "!=", "<=", "<", ">=", ">"])
    (hk : EndsWith signs tok.kind) (ts : List Token) : compareSign (tok :: ts) = .ok (none, tok :: ts) := by
  obtain ⟨k, l⟩ := tok
  rw [compareSign, bind_peek]
  cases k with
  | sign s =>
    have hne := hs s hk
    have hfind : ([.eq, .notEq, .ltE, .lt, .gtE, .gt] : List CompareOp).find? (fun op => op.sign == s) = none := by
      rw [List.find?_eq_none]
      have hall : ∀ op ∈ ([.eq, .notEq, .ltE, .lt, .gtE, .gt] : List CompareOp),
          op.sign ∈ ["==", "!=", "<=", "<", ">=", ">"] := by decide
      exact fun op hop heq => hne (beq_iff_eq.mp heq ▸ hall op hop)
    simp only [hfind]
    rfl
  | newline => rfl
  | bad _ => rfl
  | _ => exact hk.elim

theorem Reads.comparison
    (h : Reads (bitOr rules) ps ok signs) (hs : ∀ s ∈ signs, s ∉ ["==", "!=", "<=", "<", ">=", ">"]) :
    Reads (Grammar.comparison rules) ps ok signs := by
  intro ts st hf hend t r hr
  obtain ⟨_, _, -, hr⟩ := lineHere_bind hr
  refine h.followed hf hend (ended hr fun u tok m hk => ?_)
  rw [bind_of_ok (many_none (m := tok :: m) (by rw [bind_of_ok (compareSign_ends hs hk m)]; rfl))]
  rfl

theorem Reads.joinWords {op : BoolOp}
    (h : Reads operand ps ok signs) : Reads (Grammar.joinWords op operand) ps ok signs := by
  intro ts st hf hend t r hr
  obtain ⟨_, _, -, hr⟩ := lineHere_bind hr
  refine h.followed hf hend (ended hr fun u tok m hk => ?_)
  have hnone : (do if ← acceptWord op.sign then return some (← operand) else return none) (tok :: m) =
      .ok (none, tok :: m) := by
    rw [bind_acceptWord, hk.isWord]
    rfl
  rw [bind_of_ok (many_none hnone)]
  rfl

/-! ## Beginnings of spellings -/

/-- Words that stand for values: names, and the keywords that are constants. -/
def plainName (w : String) : Bool := ["True", "False", "None"].contains w || (!isKeyword w && w != "match")

/-- Lexemes that an operand can begin with. -/
def opens : List Lexeme → Bool
  | [] => false
  | .word w :: .sign s :: _ => plainName w && s != ":=" && s != "="
  | .word w :: _ => plainName w
  | .sign s :: _ => ["(", "[", "\x7b", "-"].contains s
  | _ => true

/-- The first tokens of an operand, which no rule of words or stars begins with. -/
structure Opening (tok : Token) (ts : List Token) : Prop where
  word : ∀ w, w ∈ keywords → w ∉ ["True", "False", "None"] → tok.isWord w = false
  noMatch : tok.isWord "match" = false
  sign : ∀ s, s ∉ ["(", "[", "\x7b", "-", "<"] → tok.isSign s = false
  walrus : atNameThen ":=" (tok :: ts) = .ok (false, tok :: ts)
  assign : atNameThen "=" (tok :: ts) = .ok (false, tok :: ts)

theorem isSign_next
    (hf : Follows ps ts st) (hdone : ps = [] → ((ts.head?).map (·.isSign s)).getD false = false)
    (hps : ∀ qs, ps ≠ .sign s :: qs) (hlt : s ≠ "<") : ((ts.head?).map (·.isSign s)).getD false = false := by
  cases hf with
  | done => exact hdone rfl
  | broken => rfl
  | foreign => simp [Token.isSign, Ne.symm hlt]
  | @next a as k l ts _ hk _ =>
    cases a with
    | sign u =>
      have hne : u ≠ s := by
        rintro rfl
        exact hps _ rfl
      obtain rfl := hk
      simp [Token.isSign, hne]
    | word w =>
      obtain rfl := hk
      rfl
    | number ok =>
      obtain ⟨v, rfl, -⟩ := hk
      rfl
    | text u =>
      obtain ⟨body, rfl, -⟩ := hk
      rfl
    | bytes bs =>
      obtain ⟨body, rfl, -⟩ := hk
      rfl
    | foreign => exact hk.elim

theorem Opening.other (l : Nat) (ts : List Token) (hw : ∀ w, k ≠ .word w) (hn : ∀ w, k ≠ .name w)
    (hs : ∀ s, k ≠ .sign s) : Opening ⟨k, l⟩ ts := by
  have hword (w : String) : Token.isWord w ⟨k, l⟩ = false := by
    cases k <;> first | rfl | exact absurd rfl (hw _)
  have hsign (s : String) : Token.isSign s ⟨k, l⟩ = false := by
    cases k <;> first | rfl | exact absurd rfl (hs _)
  have hname : Token.name? ⟨k, l⟩ = none := by
    cases k <;> first | rfl | exact absurd rfl (hw _) | exact absurd rfl (hn _)
  refine ⟨fun w _ _ => hword w, hword _, fun s _ => hsign s, ?_, ?_⟩ <;>
  · rw [atNameThen_cons, hname]
    rfl

theorem Opening.sign_of (l : Nat) (ts : List Token) (hs : s ∈ ["(", "[", "\x7b", "-", "<"]) :
    Opening ⟨.sign s, l⟩ ts := by
  refine ⟨fun _ _ _ => rfl, rfl, fun u hu => ?_, rfl, rfl⟩
  have hne : s ≠ u := by
    rintro rfl
    exact hu hs
  simp [Token.isSign, hne]

theorem opening
    (hf : Follows ps ts st) (ho : opens ps = true) (hend : ∀ r, st = some r → Ends signs r)
    (hs : ":=" ∉ signs ∧ "=" ∉ signs) : ∃ tok ts', ts = tok :: ts' ∧ Opening tok ts' := by
  cases hf with
  | done => cases ho
  | broken => exact ⟨_, _, rfl, .other _ _ (by simp) (by simp) (by simp)⟩
  | foreign => exact ⟨_, _, rfl, .sign_of _ _ (by decide)⟩
  | @next a as k l ts _ hk hrest =>
    refine ⟨_, _, rfl, ?_⟩
    cases a with
    | word w =>
      obtain rfl := hk
      have hplain : plainName w = true ∧ ∀ s ∈ [":=", "="], ∀ qs, as ≠ .sign s :: qs := by
        cases as with
        | nil => exact ⟨ho, by simp⟩
        | cons b bs =>
          cases b with
          | sign u =>
            simp only [opens, Bool.and_eq_true, bne_iff_ne] at ho
            refine ⟨ho.1.1, fun s hs qs heq => ?_⟩
            cases heq
            simp [ho.1.2, ho.2] at hs
          | _ => exact ⟨ho, by simp⟩
      have hthen (s : String) (hin : s ∈ [":=", "="]) (hs : s ∉ signs) (hlt : s ≠ "<") :
          atNameThen s (⟨.word w, l⟩ :: ts) = .ok (false, ⟨.word w, l⟩ :: ts) := by
        have hdone (h : as = []) : ((ts.head?).map (·.isSign s)).getD false = false := by
          subst h
          cases hrest
          obtain ⟨tok, ts', rfl, hk⟩ := hend ts rfl
          exact hk.isSign hs
        rw [atNameThen_cons, isSign_next hrest hdone (hplain.2 s hin) hlt, Bool.and_false]
      simp only [plainName, Bool.or_eq_true, Bool.and_eq_true, Bool.not_eq_true', bne_iff_ne, List.contains_iff_mem] at hplain
      refine ⟨fun kw hkw hne => ?_, ?_, fun _ _ => rfl, hthen _ (by decide) hs.1 (by decide),
        hthen _ (by decide) hs.2 (by decide)⟩
      · have hw : w ≠ kw := by
          rintro rfl
          rcases hplain.1 with h | h
          · exact hne h
          · rw [isKeyword, List.contains_iff_mem.mpr hkw] at h
            exact absurd h.1 (by decide)
        simp [Token.isWord, hw]
      · have hw : w ≠ "match" := by
          rintro rfl
          exact absurd hplain.1 (by decide)
        simp [Token.isWord, hw]
    | sign s =>
      obtain rfl := hk
      rw [opens, List.contains_iff_mem] at ho
      refine .sign_of _ _ ?_
      simp only [List.mem_cons, List.not_mem_nil, or_false] at ho ⊢
      tauto
    | number ok =>
      obtain ⟨v, rfl, -⟩ := hk
      exact .other _ _ (by simp) (by simp) (by simp)
    | text s =>
      obtain ⟨body, rfl, -⟩ := hk
      exact .other _ _ (by simp) (by simp) (by simp)
    | bytes bs =>
      obtain ⟨body, rfl, -⟩ := hk
      exact .other _ _ (by simp) (by simp) (by simp)
    | foreign => exact hk.elim

def RefusesBad (rule : Rule Tree) : Prop := ∀ ⦃cause l ts t r⦄, rule (⟨.bad cause, l⟩ :: ts) ≠ .ok (t, r)

theorem Reads.bad
    (h : Reads rule ps ok signs) (ho : opens ps = true) : RefusesBad rule := by
  intro cause l ts t r hr
  cases ps with
  | nil => cases ho
  | cons p ps =>
    obtain ⟨hst, _⟩ | ⟨_, _, hts⟩ := h (@Follows.broken p ps cause l ts) (fun _ h => by cases h) hr
    · cases hst
    · exact hts bad_cons

theorem Reads.opened
    (h : Reads inner ps ok signs) (ho : opens ps = true) (hs : ":=" ∉ signs ∧ "=" ∉ signs)
    (hrule : ∀ {tok ts t r}, Opening tok ts → rule (tok :: ts) = .ok (t, r) →
      ∃ u m, inner (tok :: ts) = .ok (u, m) ∧ (Ends signs m → t = u ∧ r = m)) : Reads rule ps ok signs := by
  intro ts st hf hend t r hr
  obtain ⟨tok, ts, rfl, hopen⟩ := opening hf ho hend hs
  exact h.followed hf hend (hrule hopen hr)

section Levels
variable (ho : opens ps = true)
  (hs : ":=" ∉ signs ∧ "=" ∉ signs)
include ho hs

theorem Reads.inversion (h : Reads (Grammar.comparison rules) ps ok signs) :
    Reads (Grammar.inversion rules) ps ok signs := by
  refine h.opened ho hs fun {tok ts t r} hopen hr => ?_
  rw [Grammar.inversion, bind_lineHere, bind_acceptWord,
    hopen.word "not" (by decide) (by decide)] at hr
  exact ⟨t, r, hr, fun _ => ⟨rfl, rfl⟩⟩

theorem Reads.expression (h : Reads (Grammar.disjunction rules) ps ok signs) :
    Reads (Grammar.expression rules) ps ok signs := by
  refine h.opened ho hs fun {tok ts t r} hopen hr => ?_
  rw [Grammar.expression, bind_atWord, hopen.word "lambda" (by decide) (by decide)] at hr
  obtain ⟨_, _, -, hr⟩ := lineHere_bind hr
  refine ended hr fun u next m hk => ?_
  rw [bind_acceptWord, hk.isWord]
  rfl

theorem Reads.named (h : Reads (rules .expression) ps ok signs) : Reads (namedExpression rules) ps ok signs := by
  refine h.opened ho hs fun {tok ts t r} hopen hr => ?_
  rw [namedExpression, bind_of_ok hopen.walrus] at hr
  refine ended hr fun u next m hk => ?_
  rw [bind_atSign, hk.isSign hs.1]
  rfl

theorem Reads.starredNamed (h : Reads (rules .named) ps ok signs) : Reads (Grammar.starredNamed rules) ps ok signs := by
  refine h.opened ho hs fun {tok ts t r} hopen hr => ?_
  rw [Grammar.starredNamed, bind_atSign, hopen.sign "*" (by decide)] at hr
  exact ⟨t, r, hr, fun _ => ⟨rfl, rfl⟩⟩

theorem Reads.starredExpression (h : Reads (rules .expression) ps ok signs) :
    Reads (Grammar.starredExpression rules) ps ok signs := by
  refine h.opened ho hs fun {tok ts t r} hopen hr => ?_
  rw [Grammar.starredExpression, bind_lineHere, bind_accept,
    hopen.sign "*" (by decide)] at hr
  exact ⟨t, r, hr, fun _ => ⟨rfl, rfl⟩⟩

theorem Reads.power (hpow : "**" ∉ signs) (h : Reads (primary rules) ps ok signs) :
    Reads (Grammar.power rules) ps ok signs := by
  refine h.opened ho hs fun {tok ts t r} hopen hr => ?_
  rw [Grammar.power, bind_lineHere, bind_acceptWord,
    hopen.word "await" (by decide) (by decide)] at hr
  refine ended hr fun u next m hk => ?_
  dsimp only
  rw [bind_accept, hk.isSign hpow]
  rfl

theorem Reads.factor (hminus : ∀ qs, ps ≠ .sign "-" :: qs) (h : Reads (Grammar.power rules) ps ok signs) :
    Reads (Grammar.factor rules) ps ok signs := by
  intro ts st hf hend t r hr
  have hne : ps ≠ [] := by
    rintro rfl
    cases ho
  have hsign := isSign_next hf (fun h => absurd h hne) hminus (by decide)
  obtain ⟨tok, ts, rfl, hopen⟩ := opening hf ho hend hs
  have hfind : ([.plus, .minus, .invert] : List UnaryOp).find? (fun op => tok.isSign op.sign) = none := by
    rw [List.find?_eq_none]
    intro op hop
    simp only [List.mem_cons, List.not_mem_nil, or_false] at hop
    rcases hop with rfl | rfl | rfl
    · simp [UnaryOp.sign, hopen.sign "+" (by decide)]
    · simpa [UnaryOp.sign] using hsign
    · simp [UnaryOp.sign, hopen.sign "~" (by decide)]
  rw [Grammar.factor, bind_peek, hfind] at hr
  exact h hf hend hr

end Levels

theorem Reads.negative
    (h : Reads (rules .factor) ps ok signs) :
    Reads (Grammar.factor rules) (.sign "-" :: ps) (fun t => ∃ l u, t = node l (.unaryOp .minus) [u] ∧ ok u) signs := by
  intro ts st hf hend t r hr
  cases hf with
  | broken => cases hr
  | @next _ _ k l ts _ hk hrest =>
    obtain rfl := hk
    rw [Grammar.factor, bind_peek] at hr
    obtain ⟨_, _, hskip, hr⟩ := bind_ok.mp hr
    cases hskip
    obtain ⟨u, hu, rfl⟩ := bind_pure_ok.mp hr
    obtain ⟨hst, hok⟩ | ⟨hst, hbad, _⟩ := h hrest hend hu
    · exact .inl ⟨hst, l, u, rfl, hok⟩
    · exact .inr ⟨hst, hbad, by rintro ⟨_, _, _, h⟩; cases h⟩

/-! ## From factors up to expressions -/

def closers : List String := [",", ")", "]", "\x7d", ":"]

def followers : List String := ["+", "-", "|"] ++ closers

theorem Reads.expression_of_bitOr (ho : opens ps = true)
    (h : Reads (bitOr rules) ps ok closers) : Reads (Grammar.expression rules) ps ok closers :=
  .expression ho (by decide) (.joinWords (.joinWords (.inversion ho (by decide) (h.comparison (by decide)))))

theorem Reads.bitOr_of_sum
    (hs : ∀ op ∈ ([.lShift, .rShift, .bitAnd, .bitXor, .bitOr] : List BinaryOp), op.sign ∉ signs)
    (h : Reads (Grammar.sum rules) ps ok signs) : Reads (Grammar.bitOr rules) ps ok signs := by
  refine .binaryLevel (.binaryLevel (.binaryLevel (.binaryLevel h ?_) ?_) ?_) ?_
  all_goals
    intro op hop
    apply hs
    simp only [List.mem_cons, List.not_mem_nil, or_false] at hop ⊢
    tauto

/-! ## Items in brackets -/

theorem expect_ok (h : expect s ts = .ok (u, r)) :
    ∃ tok, ts = tok :: r ∧ tok.isSign s = true := by
  cases ts with
  | nil => cases h
  | cons tok ts =>
    rw [expect, bind_accept] at h
    cases hs : tok.isSign s with
    | true =>
      rw [hs] at h
      cases h
      exact ⟨tok, rfl, hs⟩
    | false =>
      rw [hs] at h
      exact absurd h refuse_ne

theorem bind_expect {f : Unit → Rule β} (h : tok.isSign s = true) : (expect s >>= f) (tok :: ts) = f () ts := by
  apply bind_of_ok
  rw [expect, bind_accept, h]
  rfl

theorem expect_bad (hbad : Bad ts) : expect s ts ≠ .ok (u, r) := by
  intro h
  obtain ⟨cause, l, ts', rfl⟩ := hbad
  obtain ⟨tok, heq, htok⟩ := expect_ok h
  cases heq
  cases htok

def ReadsUpTo {α : Type} (c : String) (rule : Rule α) (ps : List Lexeme) (ok : α → Prop) : Prop :=
  ∀ ⦃ts st⦄, Follows (ps ++ [.sign c]) ts st →
    ∀ ⦃a m u r⦄, rule ts = .ok (a, m) → expect c m = .ok (u, r) → st = some r ∧ ok a

theorem isSign_self (s : String) (l : Nat) : Token.isSign s ⟨.sign s, l⟩ = true := beq_self_eq_true s

theorem bracket_cons {k : Nat → Rule α} : (do
    let line ← lineHere
    expect s
    k line) (⟨.sign s, l⟩ :: ts) = k l ts := by
  rw [bind_lineHere, bind_expect (isSign_self _ _)]

theorem closed
    (hf : Follows [.sign c] (tok :: r) st) (hc : tok.isSign c = true) : st = some r := by
  cases hf with
  | broken => cases hc
  | next hk hrest =>
    cases hrest
    rfl

theorem repeatUpTo_none {n : Nat} (h : x ts = .ok (none, ts)) :
    repeatUpTo n x ts = .ok ([], ts) := by
  cases n with
  | zero => rfl
  | succ n =>
    rw [repeatUpTo, bind_of_ok h]
    rfl

theorem many_ok {us : List α} (h : many x ts = .ok (us, m)) :
    ∃ n, repeatUpTo n x ts = .ok (us, m) := by
  obtain ⟨a, m', hx, h⟩ := bind_ok.mp h
  refine ⟨m'.length + 1 + 1, ?_⟩
  rw [repeatUpTo, bind_of_ok hx]
  cases a <;> exact h

structure Item (α : Type) where
  lexemes : List Lexeme
  ok : α → Prop

def commaed {α : Type} (items : List (Item α)) : List Lexeme := items.flatMap fun it => .sign "," :: it.lexemes

theorem separated_eq_flatMap (s : String) (it : Item α) (items : List (Item α)) :
    separated s ((it :: items).map Item.lexemes) = it.lexemes ++ items.flatMap fun it => .sign s :: it.lexemes := by
  induction items generalizing it with
  | nil => simp [separated]
  | cons next items ih =>
    rw [List.map_cons, List.map_cons, separated, ← List.map_cons, ih]
    · simp
    · simp

theorem separated_cons (it : Item α) (items : List (Item α)) :
    separated "," ((it :: items).map Item.lexemes) = it.lexemes ++ commaed items := separated_eq_flatMap "," it items

theorem ends_close (hc : c ∈ closers)
    (hf : Follows (.sign c :: qs) ts st) : Ends closers ts := by
  cases hf with
  | broken => exact ⟨_, _, rfl, trivial⟩
  | next hk _ =>
    obtain rfl := hk
    exact ⟨_, _, rfl, hc⟩

theorem ends_commaed {items : List (Item α)} (hc : c ∈ closers) (hf : Follows (commaed items ++ [.sign c]) ts st) :
    Ends closers ts := by
  cases items with
  | nil => exact ends_close hc hf
  | cons it items => exact ends_close (by decide : "," ∈ closers) hf

theorem Reads.before {rule : Rule α} {ok : α → Prop}
    (h : Reads rule ps ok signs)
    (hqs : ∀ {ts st}, Follows qs ts st → Ends signs ts) (hf : Follows (ps ++ qs) ts st) (hr : rule ts = .ok (a, m)) :
    ok a ∧ Follows qs m st ∨ st = none ∧ Bad m := by
  rcases hf.of_append with ⟨hst, hnone⟩ | ⟨mid, h1, h2⟩
  · obtain ⟨hsome, _⟩ | ⟨_, hbad, _⟩ := h hnone (fun _ h => by cases h) hr
    · cases hsome
    · exact .inr ⟨hst, hbad⟩
  · obtain ⟨heq, hok⟩ | ⟨hnone, _⟩ := h h1 (fun r hr => Option.some.inj hr ▸ hqs h2) hr
    · cases heq
      exact .inl ⟨hok, h2⟩
    · cases hnone

theorem opening_before
    (hf : Follows (ps ++ qs) ts st) (ho : opens ps = true) (hqs : ∀ {ts st}, Follows qs ts st → Ends signs ts)
    (hs : ":=" ∉ signs ∧ "=" ∉ signs) : ∃ tok ts', ts = tok :: ts' ∧ Opening tok ts' := by
  rcases hf.of_append with ⟨-, hnone⟩ | ⟨mid, h1, h2⟩
  · exact opening hnone ho (fun _ h => by cases h) hs
  · exact opening h1 ho (fun r hr => Option.some.inj hr ▸ hqs h2) hs

theorem bracket_facts (hc : c ∈ [")", "]", "\x7d"]) :
    c ≠ "," ∧ c ∈ closers ∧ c ∉ ["(", "[", "\x7b", "-", "<"] := by
  simp only [List.mem_cons, List.not_mem_nil, or_false] at hc
  rcases hc with rfl | rfl | rfl <;> decide

def nextItem {α : Type} (c : String) (item : Rule α) : Rule (Option α) := do
  if ← atSign "," then
    skip
    if ← closesWith c then return none else return some (← item)
  else return none

section Items
variable {item : Rule α}

theorem nextItem_none (ts : List Token) (h : tok.isSign "," = false) :
    nextItem c item (tok :: ts) = .ok (none, tok :: ts) := by
  rw [nextItem, bind_atSign, h]
  rfl

theorem repeat_bad (h : Bad ts) (n : Nat) : repeatUpTo n (nextItem c item) ts = .ok ([], ts) := by
  obtain ⟨cause, l, ts', rfl⟩ := h
  exact repeatUpTo_none (nextItem_none ts' rfl)

theorem nextItem_some {a : Option α} (h : tok.isSign c = false)
    (hr : nextItem c item (⟨.sign ",", l⟩ :: tok :: ts) = .ok (a, m)) :
    ∃ b, a = some b ∧ item (tok :: ts) = .ok (b, m) := by
  rw [nextItem, bind_atSign, isSign_self, if_pos rfl, bind_skip, closesWith,
    bind_atSign, h] at hr
  obtain ⟨b, hb, rfl⟩ := bind_pure_ok.mp hr
  exact ⟨b, rfl, hb⟩

theorem repeat_upTo {items : List (Item α)} (hc : c ∈ [")", "]", "\x7d"])
    (h : ∀ it ∈ items, Reads item it.lexemes it.ok closers ∧ opens it.lexemes = true) (n : Nat) :
    ReadsUpTo c (repeatUpTo n (nextItem c item)) (commaed items) (List.Forall₂ (fun it a => it.ok a) items) := by
  obtain ⟨hcomma, hclose, hopen⟩ := bracket_facts hc
  intro ts st hf as m u r hr hend
  -- induction on the rounds that are left; when they run out, a bracket can only stand after the last item
  induction n generalizing items ts as with
  | zero =>
    cases hr
    obtain ⟨tok, rfl, htok⟩ := expect_ok hend
    cases items with
    | nil => exact ⟨closed hf htok, .nil⟩
    | cons it items =>
      cases hf with
      | broken => cases htok
      | next hk _ =>
        obtain rfl := hk
        simp [Token.isSign, Ne.symm hcomma] at htok
  | succ n ih =>
    obtain ⟨a, m', ha, hr⟩ := bind_ok.mp hr
    cases items with
    | nil =>
      obtain ⟨tok, ts, rfl, htok⟩ : ∃ tok ts', ts = tok :: ts' ∧ tok.isSign "," = false := by
        cases hf with
        | broken => exact ⟨_, _, rfl, rfl⟩
        | next hk _ =>
          obtain rfl := hk
          exact ⟨_, _, rfl, by simp [Token.isSign, hcomma]⟩
      rw [nextItem_none ts htok] at ha
      cases ha
      cases hr
      obtain ⟨tok, heq, htok⟩ := expect_ok hend
      rw [heq] at hf
      exact ⟨closed hf htok, .nil⟩
    | cons it items =>
      obtain ⟨hit, hopens⟩ := h it List.mem_cons_self
      cases hf with
      | broken =>
        cases ha
        cases hr
        exact absurd hend (expect_bad bad_cons)
      | @next _ _ k l ts _ hk hrest =>
        obtain rfl := hk
        have hrest : Follows (it.lexemes ++ (commaed items ++ [.sign c])) ts st := by
          rw [← List.append_assoc]
          exact hrest
        obtain ⟨tok, ts, rfl, htok⟩ := opening_before hrest hopens (ends_commaed hclose) (by decide)
        obtain ⟨b, rfl, hb⟩ := nextItem_some (htok.sign c hopen) ha
        obtain ⟨bs, hbs, rfl⟩ := bind_pure_ok.mp hr
        obtain ⟨hok, hf⟩ | ⟨_, hbad⟩ := hit.before (ends_commaed hclose) hrest hb
        · obtain ⟨hst, hall⟩ := ih (fun it hit => h it (List.mem_cons_of_mem _ hit)) hf hbs
          exact ⟨hst, .cons hok hall⟩
        · rw [repeat_bad hbad n] at hbs
          cases hbs
          exact absurd hend (expect_bad hbad)

theorem moreItems_bad {as : List α} (hbad : Bad ts) (h : moreItems (closesWith c) item ts = .ok (as, m)) :
    m = ts := by
  obtain ⟨n, h⟩ := many_ok h
  cases h.symm.trans (repeat_bad hbad n)
  rfl

theorem moreItems_upTo {items : List (Item α)} (hc : c ∈ [")", "]", "\x7d"])
    (h : ∀ it ∈ items, Reads item it.lexemes it.ok closers ∧ opens it.lexemes = true) :
    ReadsUpTo c (moreItems (closesWith c) item) (commaed items) (List.Forall₂ (fun it a => it.ok a) items) := by
  intro ts st hf as m u r hr hend
  obtain ⟨n, hr⟩ := many_ok hr
  exact repeat_upTo hc h n hf hr hend

theorem moreItems_after {items : List (Item α)} {P : Prop} {as : List α} (hc : c ∈ [")", "]", "\x7d"])
    (h : ∀ it ∈ items, Reads item it.lexemes it.ok closers ∧ opens it.lexemes = true)
    (hfirst : P ∧ Follows (commaed items ++ [.sign c]) ts st ∨ st = none ∧ Bad ts)
    (hr : moreItems (closesWith c) item ts = .ok (as, m)) (hend : expect c m = .ok (u, r)) :
    P ∧ st = some r ∧ List.Forall₂ (fun it a => it.ok a) items as := by
  obtain ⟨hok, hf⟩ | ⟨_, hbad⟩ := hfirst
  · exact ⟨hok, moreItems_upTo hc h hf hr hend⟩
  · obtain rfl := moreItems_bad hbad hr
    exact absurd hend (expect_bad hbad)

theorem commaItems_upTo {it : Item α} {items : List (Item α)} (hc : c ∈ [")", "]", "\x7d"])
    (h : ∀ it' ∈ it :: items, Reads item it'.lexemes it'.ok closers ∧ opens it'.lexemes = true) :
    ReadsUpTo c (commaItems (closesWith c) item) (it.lexemes ++ commaed items)
      fun p => List.Forall₂ (fun it a => it.ok a) (it :: items) p.1 := by
  intro ts st hf p m u r hr hend
  rw [List.append_assoc] at hf
  obtain ⟨a, m', ha, hr⟩ := bind_ok.mp hr
  obtain ⟨_, _, hget, hr⟩ := bind_ok.mp hr
  cases hget
  obtain ⟨as, m'', has, hr⟩ := bind_ok.mp hr
  obtain ⟨_, _, hget, hr⟩ := bind_ok.mp hr
  cases hget
  cases hr
  have hfirst := (h it List.mem_cons_self).1.before (ends_commaed (bracket_facts hc).2.1) hf ha
  obtain ⟨hok, hst, hall⟩ := moreItems_after hc (fun it' hit => h it' (List.mem_cons_of_mem _ hit)) hfirst has hend
  exact ⟨hst, .cons hok hall⟩

end Items

/-! ## Atoms -/

section Atoms

/-- Tokens that break off at once are no atom, so that a spelling may be read from its first token on. -/
theorem reads_atom {p : Lexeme} (h : ∀ ⦃k l ts st t r⦄, p.Is k → Follows ps ts st → (∀ r, st = some r → Ends signs r) →
    atom rules (⟨k, l⟩ :: ts) = .ok (t, r) → st = some r ∧ ok t) : Reads (atom rules) (p :: ps) ok signs := by
  intro ts st hf hend t r hr
  cases hf with
  | broken | foreign => cases hr
  | next hk hf => exact .inl (h hk hf hend hr)

theorem reads_name (hw : isKeyword w = false) :
    Reads (atom rules) [.word w] (fun t => ∃ l, t = nameNode l w) signs := by
  refine reads_atom fun _ l ts _ _ _ hk hf _ hr => ?_
  obtain rfl := hk
  cases hf
  have hname : Token.name? ⟨.word w, l⟩ = some w := by simp [Token.name?, hw]
  rw [atom, bind_peek, hname] at hr
  cases hr
  exact ⟨rfl, l, rfl⟩

theorem reads_keyword {v : Value} (hw : (w, v) ∈ [("True", .bool true), ("False", .bool false), ("None", Value.none)]) :
    Reads (atom rules) [.word w] (fun t => ∃ l, t = constantNode l v) signs := by
  refine reads_atom fun _ l _ _ _ _ hk hf _ hr => ?_
  simp only [List.mem_cons, Prod.mk.injEq, List.not_mem_nil, or_false] at hw
  obtain rfl := hk
  cases hf
  rcases hw with ⟨rfl, rfl⟩ | ⟨rfl, rfl⟩ | ⟨rfl, rfl⟩ <;>
  · cases hr
    exact ⟨rfl, l, rfl⟩

theorem reads_number {ok : Value → Prop} :
    Reads (atom rules) [.number ok] (fun t => ∃ l v, t = constantNode l v ∧ ok v) signs := by
  refine reads_atom fun _ l _ _ _ _ hk hf _ hr => ?_
  obtain ⟨v, rfl, hv⟩ := hk
  cases hf
  cases hr
  exact ⟨rfl, l, v, rfl, hv⟩

theorem reads_foreign : Reads (atom rules) [.foreign] ok signs := reads_atom fun _ _ _ _ _ _ hk => hk.elim

theorem stringRow_single {literal : StringToken} (hend : Ends signs ts) :
    stringRow (⟨.string literal, l⟩ :: ts) = .ok ([(l, literal)], ts) := by
  obtain ⟨⟨k, l'⟩, ts, rfl, hk⟩ := hend
  rw [stringRow, many, bind_of_ok (a := some (l, literal)) (m := ⟨k, l'⟩ :: ts) rfl]
  dsimp only
  rw [bind_of_ok (a := ⟨k, l'⟩ :: ts) (m := ⟨k, l'⟩ :: ts) rfl]
  refine (bind_of_ok (repeatUpTo_none ?_)).trans rfl
  cases k <;> first | rfl | exact hk.elim

theorem reads_text {s : Text} :
    Reads (atom rules) [.text s] (fun t => ∃ l, t = constantNode l (.str s)) signs := by
  refine reads_atom fun _ l ts _ _ _ hk hf hend hr => ?_
  obtain ⟨body, rfl, hbody⟩ := hk
  cases hf
  rw [atom, bind_peek] at hr
  dsimp only at hr
  rw [strings, bind_lineHere, bind_of_ok (stringRow_single (hend ts rfl))] at hr
  simp only [List.any_cons, List.any_nil, Bool.or_self, Bool.false_eq_true, ↓reduceIte, List.mapM_cons,
    List.mapM_nil, literalPieces, codesOf, hbody, pure_bind] at hr
  cases s <;>
  · cases hr
    exact ⟨rfl, l, rfl⟩

theorem reads_bytes {bs : List Nat} :
    Reads (atom rules) [.bytes bs] (fun t => ∃ l, t = constantNode l (.bytes bs)) signs := by
  refine reads_atom fun _ l ts _ _ _ hk hf hend hr => ?_
  obtain ⟨body, rfl, hplain, hbody⟩ := hk
  cases hf
  rw [atom, bind_peek] at hr
  dsimp only at hr
  rw [strings, bind_lineHere, bind_of_ok (stringRow_single (hend ts rfl))] at hr
  have hbytes : byteBody ⟨false, true, false, false, body⟩ = some bs := by
    rw [byteBody, if_pos hplain]
    exact hbody
  simp only [List.any_cons, List.all_cons, List.all_nil, Bool.true_or, Bool.and_self, ↓reduceIte, List.mapM_cons,
    List.mapM_nil, hbytes, Option.pure_def, Option.bind_eq_bind, Option.bind_some, List.flatten_singleton] at hr
  cases hr
  exact ⟨rfl, l, rfl⟩

/-! ## Brackets -/

def unstarred (t : Tree) : Prop := ∀ tag ctx parts, t = .node tag (.starred ctx) parts → False

theorem atClause_ends (hk : EndsWith signs tok.kind) (ts : List Token) :
    atClause (tok :: ts) = .ok (false, tok :: ts) := by
  rw [atClause, bind_atWord, hk.isWord]
  show (atWord "async" >>= _) _ = _
  rw [bind_atWord, hk.isWord]
  rfl

theorem atClause_bad (ts : List Token) :
    atClause (⟨.bad cause, l⟩ :: ts) = .ok (false, ⟨.bad cause, l⟩ :: ts) := rfl

def roundRest (rules : Rules) (l : Nat) (first : Tree) : Rule Tree := do
  if ← accept "," then
    if ← accept ")" then return node l (.tuple .load) [.seq [first]]
    let (rest, _) ← commaItems (closesWith ")") (starredNamed rules)
    expect ")"
    return node l (.tuple .load) [.seq (first :: rest)]
  else if ← atClause then
    let cs ← clauses rules
    expect ")"
    return node l .generatorExp [first, cs]
  else
    expect ")"
    return first

theorem roundRest_close (hk : EndsWith closers tok.kind)
    (hcomma : tok.isSign "," = false) (hr : roundRest rules l first (tok :: m) = .ok (t, r)) :
    t = first ∧ expect ")" (tok :: m) = .ok ((), r) := by
  rw [roundRest, bind_accept, hcomma] at hr
  simp only [Bool.false_eq_true, ↓reduceIte] at hr
  rw [bind_of_ok (atClause_ends hk m)] at hr
  obtain ⟨_, he, rfl⟩ := bind_pure_ok.mp hr
  exact ⟨rfl, he⟩

theorem roundRest_comma
    (hf : Follows (.sign "," :: qs) m st) (hr : roundRest rules l first m = .ok (t, r)) :
    ∃ m', Follows qs m' st ∧ (do
      if ← accept ")" then return node l (.tuple .load) [.seq [first]]
      let (rest, _) ← commaItems (closesWith ")") (starredNamed rules)
      expect ")"
      return node l (.tuple .load) [.seq (first :: rest)]) m' = .ok (t, r) := by
  cases hf with
  | @broken _ _ cause k ts =>
    obtain ⟨-, he⟩ := roundRest_close (show EndsWith closers (Token.kind ⟨.bad cause, k⟩) from trivial) rfl hr
    exact absurd he (expect_bad bad_cons)
  | @next _ _ k l ts _ hk hf =>
    obtain rfl := hk
    exact ⟨ts, hf, hr⟩

theorem starredNamed_bad (h : RefusesBad (rules .named)) : RefusesBad (starredNamed rules) := by
  intro cause l ts t r hr
  exact h hr

def curlyRest (rules : Rules) (l : Nat) (first : Tree) : Rule Tree := do
  if ← atSign ":" then
    skip
    let value ← rules .expression
    if ← atClause then
      let cs ← clauses rules
      expect "\x7d"
      return node l .dictComp [first, value, cs]
    else
      let rest ← moreItems (closesWith "\x7d") (dictItem rules)
      expect "\x7d"
      return dictNode l ((first, value) :: rest)
  else if ← atClause then
    let cs ← clauses rules
    expect "\x7d"
    return node l .setComp [first, cs]
  else
    let rest ← moreItems (closesWith "\x7d") (starredNamed rules)
    expect "\x7d"
    return node l .setDisplay [.seq (first :: rest)]

section First
variable (h : Reads (rules .named) ps ok closers) (ho : opens ps = true) (hstar : ∀ t, ok t → unstarred t)
include h ho hstar

theorem roundAtom_first (hqs : ∀ {ts st}, Follows qs ts st → Ends closers ts) (hf : Follows (ps ++ qs) ts st)
    (hr : roundAtom rules (⟨.sign "(", l⟩ :: ts) = .ok (t, r)) :
    ∃ first m, ok first ∧ Follows qs m st ∧ roundRest rules l first m = .ok (t, r) := by
  obtain ⟨tok, ts, rfl, hopen⟩ := opening_before hf ho hqs (by decide)
  rw [roundAtom, bracket_cons, bind_accept, hopen.sign ")" (by decide)] at hr
  simp only [Bool.false_eq_true, ↓reduceIte] at hr
  rw [bind_atWord, hopen.word "yield" (by decide) (by decide)] at hr
  obtain ⟨first, m, hfirst, hr⟩ := bind_ok.mp hr
  obtain ⟨hok, hf⟩ | ⟨_, cause, l', m, rfl⟩ := (Reads.starredNamed ho (by decide) h).before hqs hf hfirst
  · refine ⟨first, m, hok, hf, ?_⟩
    split at hr
    · exact absurd rfl (hstar _ hok _ _ _)
    · exact hr
  · rw [bind_accept, show Token.isSign "," ⟨.bad cause, l'⟩ = false from rfl] at hr
    simp only [Bool.false_eq_true, ↓reduceIte] at hr
    split at hr
    · exact absurd hr refuse_ne
    · rw [if_neg (by decide), bind_of_ok (atClause_bad m)] at hr
      obtain ⟨_, _, he, -⟩ := bind_ok.mp hr
      exact absurd he (expect_bad bad_cons)

theorem reads_round : Reads (atom rules) (.sign "(" :: ps ++ [.sign ")"]) ok signs := by
  refine reads_atom fun _ _ _ _ _ _ hk hf _ hr => ?_
  obtain rfl := hk
  obtain ⟨first, m, hok, hf, hr⟩ := roundAtom_first h ho hstar (ends_close (by decide)) hf hr
  obtain ⟨tok, m, rfl, hk⟩ := ends_close (by decide) hf
  obtain ⟨rfl, he⟩ := roundRest_close hk (isSign_next hf (by simp) (by simp) (by decide)) hr
  obtain ⟨tok, heq, htok⟩ := expect_ok he
  cases heq
  exact ⟨closed hf htok, hok⟩

theorem reads_single : Reads (atom rules) (.sign "(" :: ps ++ [.sign ",", .sign ")"])
      (fun t => ∃ l u, t = node l (.tuple .load) [.seq [u]] ∧ ok u) signs := by
  refine reads_atom fun _ l _ _ _ _ hk hf _ hr => ?_
  obtain rfl := hk
  obtain ⟨first, m, hok, hf, hr⟩ := roundAtom_first h ho hstar (ends_close (by decide)) hf hr
  obtain ⟨m, hf, hr⟩ := roundRest_comma hf hr
  cases hf with
  | broken =>
    rw [bind_accept] at hr
    obtain ⟨_, _, hitems, -⟩ := bind_ok.mp hr
    obtain ⟨_, _, hitem, -⟩ := bind_ok.mp hitems
    exact (starredNamed_bad (h.bad ho) hitem).elim
  | next hk hf =>
    obtain rfl := hk
    cases hf
    cases hr
    exact ⟨rfl, l, first, rfl, hok⟩

theorem curlyAtom_first (hqs : ∀ {ts st}, Follows qs ts st → Ends closers ts) (hf : Follows (ps ++ qs) ts st)
    (hr : curlyAtom rules (⟨.sign "\x7b", l⟩ :: ts) = .ok (t, r)) :
    ∃ first m, ok first ∧ Follows qs m st ∧ curlyRest rules l first m = .ok (t, r) := by
  obtain ⟨tok, ts, rfl, hopen⟩ := opening_before hf ho hqs (by decide)
  rw [curlyAtom, bracket_cons, bind_accept, hopen.sign "\x7d" (by decide)] at hr
  simp only [Bool.false_eq_true, ↓reduceIte] at hr
  rw [bind_atSign, hopen.sign "**" (by decide)] at hr
  simp only [Bool.false_eq_true, ↓reduceIte] at hr
  rw [bind_of_ok hopen.walrus] at hr
  obtain ⟨first, m, hfirst, hr⟩ := bind_ok.mp hr
  obtain ⟨hok, hf⟩ | ⟨_, cause, l', m, rfl⟩ := (Reads.starredNamed ho (by decide) h).before hqs hf hfirst
  · refine ⟨first, m, hok, hf, ?_⟩
    split at hr
    · exact absurd rfl (hstar _ hok _ _ _)
    · exact hr
  · rw [bind_atSign, show Token.isSign ":" ⟨.bad cause, l'⟩ = false from rfl, Bool.and_false] at hr
    simp only [Bool.false_eq_true, ↓reduceIte] at hr
    rw [bind_of_ok (atClause_bad m), Bool.and_false] at hr
    obtain ⟨_, _, hmore, hr⟩ := bind_ok.mp hr
    obtain rfl := moreItems_bad bad_cons hmore
    obtain ⟨_, _, he, -⟩ := bind_ok.mp hr
    exact absurd he (expect_bad bad_cons)

end First

theorem reads_emptyTuple (hbad : RefusesBad (rules .named)) : Reads (atom rules) [.sign "(", .sign ")"]
    (fun t => ∃ l, t = node l (.tuple .load) [.seq []]) signs := by
  refine reads_atom fun _ l ts _ t r hk hf _ hr => ?_
  obtain rfl := hk
  replace hr : roundAtom rules (⟨.sign "(", l⟩ :: ts) = .ok (t, r) := hr
  cases hf with
  | broken =>
    rw [roundAtom, bracket_cons, bind_accept] at hr
    obtain ⟨_, _, hyield, hr⟩ := bind_ok.mp hr
    cases hyield
    obtain ⟨_, _, hfirst, -⟩ := bind_ok.mp hr
    exact (starredNamed_bad hbad hfirst).elim
  | next hk hf =>
    obtain rfl := hk
    cases hf
    cases hr
    exact ⟨rfl, l, rfl⟩

def ItemsRead (rules : Rules) (items : List (Item Tree)) : Prop :=
  ∀ it ∈ items, Reads (rules .named) it.lexemes it.ok closers ∧ opens it.lexemes = true ∧ ∀ t, it.ok t → unstarred t

theorem ItemsRead.starred {items : List (Item Tree)} (h : ItemsRead rules items) :
    ∀ it ∈ items, Reads (starredNamed rules) it.lexemes it.ok closers ∧ opens it.lexemes = true := by
  intro it hit
  obtain ⟨h1, h2, -⟩ := h it hit
  exact ⟨.starredNamed h2 (by decide) h1, h2⟩

theorem follows_assoc (hf : Follows (ps ++ qs ++ rs) ts st) : Follows (ps ++ (qs ++ rs)) ts st := by
  rwa [← List.append_assoc]

theorem reads_tuple {it next : Item Tree} {items : List (Item Tree)} (h : ItemsRead rules (it :: next :: items)) :
    Reads (atom rules) (.sign "(" :: separated "," ((it :: next :: items).map Item.lexemes) ++ [.sign ")"])
      (fun t => ∃ l us, t = node l (.tuple .load) [.seq us] ∧
        List.Forall₂ (fun it u => it.ok u) (it :: next :: items) us) signs := by
  refine reads_atom fun _ l ts st _ _ hk hf _ hr => ?_
  rw [separated_cons] at hf
  obtain rfl := hk
  obtain ⟨hit, hopens, hstar⟩ := h it List.mem_cons_self
  replace hf := follows_assoc hf
  obtain ⟨first, m, hok, hf, hr⟩ := roundAtom_first hit hopens hstar (ends_commaed (by decide)) hf hr
  obtain ⟨m, hf, hr⟩ := roundRest_comma hf hr
  have hrest := h.starred
  replace hf := follows_assoc hf
  obtain ⟨tok, m, rfl, hopen⟩ := opening_before hf (hrest next (by simp)).2 (ends_commaed (by decide)) (by decide)
  rw [bind_accept, hopen.sign ")" (by decide)] at hr
  obtain ⟨⟨us, flag⟩, m', hus, hr⟩ := bind_ok.mp hr
  obtain ⟨_, he, rfl⟩ := bind_pure_ok.mp hr
  rw [← List.append_assoc] at hf
  obtain ⟨hst, hall⟩ := commaItems_upTo (by decide) (fun it' hit' => hrest it' (List.mem_cons_of_mem _ hit')) hf hus he
  exact ⟨hst, l, first :: us, rfl, .cons hok hall⟩

theorem reads_list (hbad : RefusesBad (rules .named)) {items : List (Item Tree)} (h : ItemsRead rules items) :
    Reads (atom rules) (.sign "[" :: separated "," (items.map Item.lexemes) ++ [.sign "]"])
      (fun t => ∃ l us, t = node l (.list .load) [.seq us] ∧ List.Forall₂ (fun it u => it.ok u) items us) signs := by
  refine reads_atom fun _ l ts st t r hk hf _ hr => ?_
  obtain rfl := hk
  replace hr : squareAtom rules (⟨.sign "[", l⟩ :: ts) = .ok (t, r) := hr
  rw [squareAtom, bracket_cons] at hr
  cases items with
  | nil =>
    cases hf with
    | broken =>
      rw [bind_accept] at hr
      obtain ⟨_, _, hfirst, -⟩ := bind_ok.mp hr
      exact (starredNamed_bad hbad hfirst).elim
    | next hk hf =>
      obtain rfl := hk
      cases hf
      cases hr
      exact ⟨rfl, l, [], rfl, .nil⟩
  | cons it items =>
    obtain ⟨hit, hopens, hstar⟩ := h it List.mem_cons_self
    rw [separated_cons] at hf
    replace hf := follows_assoc hf
    obtain ⟨tok, ts, rfl, hopen⟩ := opening_before hf hopens (ends_commaed (by decide)) (by decide)
    rw [bind_accept, hopen.sign "]" (by decide)] at hr
    obtain ⟨first, m, hfirst, hr⟩ := bind_ok.mp hr
    have hafter := (Reads.starredNamed hopens (by decide) hit).before (ends_commaed (by decide)) hf hfirst
    obtain ⟨tok, m, rfl, hk⟩ : Ends closers m :=
      hafter.elim (fun hf => ends_commaed (by decide) hf.2) fun hbad => hbad.2.ends
    rw [bind_of_ok (atClause_ends hk m), Bool.and_false] at hr
    obtain ⟨us, m', hus, hr⟩ := bind_ok.mp hr
    obtain ⟨_, he, rfl⟩ := bind_pure_ok.mp hr
    obtain ⟨hok, hst, hall⟩ := moreItems_after (by decide)
      (fun it' hit' => h.starred it' (List.mem_cons_of_mem _ hit')) hafter hus he
    exact ⟨hst, l, first :: us, rfl, .cons hok hall⟩

theorem reads_set {it : Item Tree} {items : List (Item Tree)} (h : ItemsRead rules (it :: items)) :
    Reads (atom rules) (.sign "\x7b" :: separated "," ((it :: items).map Item.lexemes) ++ [.sign "\x7d"])
      (fun t => ∃ l us, t = node l .setDisplay [.seq us] ∧ List.Forall₂ (fun it u => it.ok u) (it :: items) us)
      signs := by
  refine reads_atom fun _ l ts st _ _ hk hf _ hr => ?_
  rw [separated_cons] at hf
  obtain rfl := hk
  obtain ⟨hit, hopens, hstar⟩ := h it List.mem_cons_self
  replace hf := follows_assoc hf
  obtain ⟨first, m, hok, hf, hr⟩ := curlyAtom_first hit hopens hstar (ends_commaed (by decide)) hf hr
  obtain ⟨tok, m, rfl, hk⟩ := ends_commaed (by decide) hf
  have hcolon : tok.isSign ":" = false := by
    cases items with
    | nil => exact isSign_next hf (by simp [commaed]) (by simp [commaed]) (by decide)
    | cons next items => exact isSign_next hf (by simp [commaed]) (by simp [commaed]) (by decide)
  rw [curlyRest, bind_atSign, hcolon] at hr
  simp only [Bool.false_eq_true, ↓reduceIte] at hr
  rw [bind_of_ok (atClause_ends hk m)] at hr
  obtain ⟨us, m', hus, hr⟩ := bind_ok.mp hr
  obtain ⟨_, he, rfl⟩ := bind_pure_ok.mp hr
  obtain ⟨hst, hall⟩ := moreItems_upTo (by decide) (fun it' hit' => h.starred it' (List.mem_cons_of_mem _ hit'))
    hf hus he
  exact ⟨hst, l, first :: us, rfl, .cons hok hall⟩

structure Entry where
  key : Item Tree
  value : Item Tree

def Entry.item (e : Entry) : Item (Tree × Tree) :=
  ⟨e.key.lexemes ++ .sign ":" :: e.value.lexemes, fun p => e.key.ok p.1 ∧ e.value.ok p.2⟩

def EntriesRead (rules : Rules) (entries : List Entry) : Prop :=
  ∀ e ∈ entries, (Reads (rules .named) e.key.lexemes e.key.ok closers ∧
    Reads (rules .expression) e.key.lexemes e.key.ok closers ∧ opens e.key.lexemes = true ∧
      ∀ t, e.key.ok t → unstarred t) ∧
    Reads (rules .expression) e.value.lexemes e.value.ok closers

theorem opens_append (h : opens ps = true) (hs : s ≠ ":=" ∧ s ≠ "=") :
    opens (ps ++ .sign s :: qs) = true := by
  match ps, h with
  | .word w :: .sign u :: ps, h => exact h
  | [.word w], h =>
    have hw : plainName w = true := h
    simp [opens, hw, hs]
  | .word w :: .word _ :: ps, h | .word w :: .number _ :: ps, h | .word w :: .text _ :: ps, h
  | .word w :: .bytes _ :: ps, h | .word w :: .foreign :: ps, h => exact h
  | .sign u :: ps, h => exact h
  | .number _ :: ps, _ | .text _ :: ps, _ | .bytes _ :: ps, _ | .foreign :: ps, _ => rfl

theorem expect_colon
    (hf : Follows (.sign ":" :: qs) ts st) (he : expect ":" ts = .ok (u, m)) : Follows qs m st := by
  obtain ⟨tok, rfl, htok⟩ := expect_ok he
  cases hf with
  | broken => cases htok
  | next _ hf => exact hf

theorem EntriesRead.items (h : EntriesRead rules entries) :
    ∀ it ∈ entries.map Entry.item, Reads (dictItem rules) it.lexemes it.ok closers ∧ opens it.lexemes = true := by
  intro it hit
  obtain ⟨e, he, rfl⟩ := List.mem_map.mp hit
  obtain ⟨⟨-, hkey, hopens, -⟩, hvalue⟩ := h e he
  refine ⟨fun ts st hf hend p r hr => ?_, opens_append hopens (by decide)⟩
  obtain ⟨tok, ts, rfl, hopen⟩ := opening_before hf hopens (ends_close (by decide)) (by decide)
  rw [dictItem, bind_accept, hopen.sign "**" (by decide)] at hr
  obtain ⟨k, m, hk, hr⟩ := bind_ok.mp hr
  obtain ⟨_, m', hcolon, hr⟩ := bind_ok.mp hr
  obtain ⟨v, hv, rfl⟩ := bind_pure_ok.mp hr
  obtain ⟨hok, hf⟩ | ⟨_, hbad⟩ := hkey.before (ends_close (by decide)) hf hk
  · obtain ⟨hst, hval⟩ | ⟨hst, hbad, _⟩ := hvalue (expect_colon hf hcolon) hend hv
    · exact .inl ⟨hst, hok, hval⟩
    · refine .inr ⟨hst, hbad, ?_⟩
      rintro ⟨_, _, _, heq⟩
      cases heq
      exact hkey.bad hopens hk
  · exact absurd hcolon (expect_bad hbad)

theorem reads_dict (hbad : RefusesBad (rules .named)) (h : EntriesRead rules entries) :
    Reads (atom rules) (.sign "\x7b" :: separated "," ((entries.map Entry.item).map Item.lexemes) ++ [.sign "\x7d"])
      (fun t => ∃ l us, t = dictNode l us ∧ List.Forall₂ (fun e u => e.item.ok u) entries us) signs := by
  refine reads_atom fun _ l ts st t r hk hf _ hr => ?_
  obtain rfl := hk
  replace hr : curlyAtom rules (⟨.sign "\x7b", l⟩ :: ts) = .ok (t, r) := hr
  cases entries with
  | nil =>
    cases hf with
    | broken =>
      rw [curlyAtom, bracket_cons, bind_accept] at hr
      obtain ⟨_, _, hstars, hr⟩ := bind_ok.mp hr
      cases hstars
      obtain ⟨_, _, hthen, hr⟩ := bind_ok.mp hr
      cases hthen
      obtain ⟨_, _, hfirst, -⟩ := bind_ok.mp hr
      exact (starredNamed_bad hbad hfirst).elim
    | next hk hf =>
      obtain rfl := hk
      cases hf
      cases hr
      exact ⟨rfl, l, [], rfl, .nil⟩
  | cons e entries =>
    obtain ⟨⟨hkey, -, hopens, hstar⟩, hvalue⟩ := h e List.mem_cons_self
    have hf : Follows (e.key.lexemes ++ (.sign ":" :: e.value.lexemes ++
        (commaed (entries.map Entry.item) ++ [.sign "\x7d"]))) ts st := by
      rw [List.map_cons, separated_cons] at hf
      simpa [Entry.item] using hf
    obtain ⟨first, m, hok, hf, hr⟩ := curlyAtom_first hkey hopens hstar (ends_close (by decide)) hf hr
    cases hf with
    | broken => cases hr
    | @next _ _ k l' ts _ hk hrest =>
      obtain rfl := hk
      rw [curlyRest, bind_atSign, isSign_self, if_pos rfl, bind_skip] at hr
      obtain ⟨value, m, hv, hr⟩ := bind_ok.mp hr
      have hafter := hvalue.before (ends_commaed (by decide)) hrest hv
      obtain ⟨tok, m, rfl, hk⟩ : Ends closers m :=
        hafter.elim (fun hf => ends_commaed (by decide) hf.2) fun hbad => hbad.2.ends
      rw [bind_of_ok (atClause_ends hk m)] at hr
      obtain ⟨us, m', hus, hr⟩ := bind_ok.mp hr
      obtain ⟨_, he, rfl⟩ := bind_pure_ok.mp hr
      obtain ⟨hval, hst, hall⟩ := moreItems_after (by decide)
        (EntriesRead.items fun e' he' => h e' (List.mem_cons_of_mem _ he')) hafter hus he
      exact ⟨hst, l, (first, value) :: us, rfl, .cons ⟨hok, hval⟩ (List.forall₂_map_left_iff.mp hall)⟩

end Atoms

end SourceOptimizer.Grammar
