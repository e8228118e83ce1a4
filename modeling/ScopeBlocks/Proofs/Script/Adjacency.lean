import ScopeBlocks.Proofs.Script.Spelling
import ScopeBlocks.Proofs.Script.Writing

/-! Which lexemes stand beside each other in written scripts. Two words do, but no two lexemes else that
would be read differently with nothing between them. -/
namespace ScopeBlocks.Script

namespace Lexeme

def Beside (l m : Lexeme) : Prop := l.apart m = true ∨ l.isWord = true ∧ m.isWord = true

/-- Brackets and marks that are read as themselves wherever they stand. -/
def isEdge : Lexeme → Bool
  | .openParen | .closeParen | .openBrace | .closeBrace | .semicolon | .comma => true
  | _ => false

def opens : Lexeme → Bool
  | .operator _ | .assign _ | .bang => true
  | l => l.isEdge

def endsOperand : Lexeme → Bool
  | .number _ | .text _ | .name _ | .keyword _ | .closeParen => true
  | _ => false

def closes : Lexeme → Bool
  | .operator _ | .dot => true
  | l => l.isEdge

variable {l m : Lexeme}

theorem beside_of_edge (h : l.isEdge = true) (m : Lexeme) : l.Beside m := by
  cases l <;> first | exact .inl rfl | cases h

theorem beside_edge (l : Lexeme) (h : m.isEdge = true) : l.Beside m := by
  left
  cases m with
  | openParen | closeParen | openBrace | closeBrace | semicolon | comma =>
    cases l with
    | assign op => cases op <;> rfl
    | operator op => cases op <;> rfl
    | _ => rfl
  | _ => cases h

theorem beside_of_opens (hl : l.opens = true) (hm : m.startsExpr = true) : l.Beside m := by
  have heq : m.startsEquals = false := by
    cases m with
    | operator op => cases op <;> first | rfl | cases hm
    | assign => cases hm
    | _ => rfl
  have hdiv : m ≠ .operator .div ∧ m ≠ .operator .mul := by
    constructor <;> rintro rfl <;> cases hm
  cases l with
  | operator op => cases op <;> simp [Beside, apart, heq, hdiv]
  | assign op => cases op <;> simp [Beside, apart, heq]
  | bang => simp [Beside, apart, heq]
  | _ => first | exact beside_of_edge rfl m | cases hl

theorem beside_of_closes (hl : l.endsOperand = true) (hm : m.closes = true) : l.Beside m := by
  cases m with
  | operator op => cases l <;> first | exact .inl rfl | cases hl
  | dot => cases l <;> first | exact .inl rfl | cases hl
  | _ => first | exact beside_edge l rfl | cases hm

end Lexeme

open Lexeme

abbrev Fits (ls : List Lexeme) : Prop := ls.IsChain Beside

theorem fits_edge {ls ms : List Lexeme} {l : Lexeme} (hl : l.isEdge = true) (hls : Fits ls)
    (hms : Fits ms) : Fits (ls ++ l :: ms) :=
  hls.append (hms.cons fun m _ => beside_of_edge hl m) fun _ _ m hm => by
    cases hm
    exact beside_edge _ hl

/-- Lexemes of an operand, which begin and end as operands do. -/
structure Operand (ls : List Lexeme) : Prop where
  fits : Fits ls
  starts : ∃ l, ls.head? = some l ∧ l.startsExpr = true
  ends : ∃ l, ls.getLast? = some l ∧ l.endsOperand = true

namespace Operand

variable {ls ms : List Lexeme}

theorem single {l : Lexeme} (hs : l.startsExpr = true) (he : l.endsOperand = true) : Operand [l] :=
  ⟨.singleton l, ⟨l, rfl, hs⟩, ⟨l, rfl, he⟩⟩

theorem cons_fits {l : Lexeme} (h : Operand ls) (hl : l.opens = true) : Fits (l :: ls) := by
  obtain ⟨m, hm, hs⟩ := h.starts
  refine h.fits.cons fun n hn => ?_
  obtain rfl : m = n := Option.some.inj (hm.symm.trans hn)
  exact beside_of_opens hl hs

theorem getLast?_cons {l : Lexeme} (h : Operand ls) : (l :: ls).getLast? = ls.getLast? := by
  obtain ⟨m, hm, -⟩ := h.ends
  rw [List.getLast?_cons, hm]
  rfl

theorem signed {l : Lexeme} (h : Operand ls) (hl : l.opens = true) (hs : l.startsExpr = true) :
    Operand (l :: ls) :=
  ⟨h.cons_fits hl, ⟨l, rfl, hs⟩, by rw [h.getLast?_cons]; exact h.ends⟩

theorem append_fits {l : Lexeme} (h : Operand ls) (hl : l.closes = true) (hms : Fits (l :: ms)) :
    Fits (ls ++ l :: ms) := by
  obtain ⟨m, hm, he⟩ := h.ends
  refine h.fits.append hms fun n hn k hk => ?_
  obtain rfl : m = n := Option.some.inj (hm.symm.trans hn)
  cases hk
  exact beside_of_closes he hl

theorem head?_append (h : Operand ls) (ms : List Lexeme) : (ls ++ ms).head? = ls.head? := by
  obtain ⟨m, hm, -⟩ := h.starts
  rw [List.head?_append, hm]
  rfl

theorem join {l : Lexeme} (h : Operand ls) (hl : l.closes = true) (hopens : l.opens = true)
    (hms : Operand ms) : Operand (ls ++ l :: ms) where
  fits := h.append_fits hl (hms.cons_fits hopens)
  starts := by rw [h.head?_append]; exact h.starts
  ends := by
    obtain ⟨m, hm, he⟩ := hms.ends
    exact ⟨m, by rw [List.getLast?_append, hms.getLast?_cons, hm]; rfl, he⟩

theorem field (h : Operand ls) (f : String) : Operand (ls ++ [.dot, .name f]) where
  fits := h.append_fits rfl (List.isChain_pair.2 (.inl rfl))
  starts := by rw [h.head?_append]; exact h.starts
  ends := ⟨.name f, by simp, rfl⟩

theorem enclosed (h : Fits ls) : Operand (.openParen :: (ls ++ [.closeParen])) where
  fits := (fits_edge rfl h .nil).cons fun m _ => beside_of_edge rfl m
  starts := ⟨.openParen, rfl, rfl⟩
  ends := ⟨.closeParen, by rw [← List.cons_append, List.getLast?_concat], rfl⟩

theorem fits_commas {lss : List (List Lexeme)} (h : ∀ ls ∈ lss, Operand ls) : Fits (commas lss) := by
  induction lss with
  | nil => exact .nil
  | cons ls lss ih =>
    cases lss with
    | nil => exact (h ls List.mem_cons_self).fits
    | cons ms lss =>
      exact fits_edge rfl (h ls List.mem_cons_self).fits
        (ih fun ls hls => h ls (List.mem_cons_of_mem _ hls))

end Operand

theorem Expr.Written.operand {k : Nat} {ls : List Lexeme} {e : Expr} (h : e.Written k ls) :
    Operand ls := by
  induction h with
  | number x => exact .single rfl rfl
  | text s => exact .single rfl rfl
  | truth b => cases b <;> exact .single rfl rfl
  | null => exact .single rfl rfl
  | var free => exact .single rfl rfl
  | call p args written ih =>
    have hargs : Fits (commas (args.map Prod.fst)) := by
      refine Operand.fits_commas fun ls hls => ?_
      obtain ⟨a, ha, rfl⟩ := List.mem_map.1 hls
      exact ih a ha
    obtain ⟨hfits, -, hends⟩ := Operand.enclosed hargs
    refine ⟨hfits.cons fun m hm => ?_, ⟨.name p.name, rfl, rfl⟩, ?_⟩
    · cases hm
      exact beside_edge _ rfl
    · simpa using hends
  | parens written ih => exact .enclosed ih.fits
  | @fields ls e written fs ih =>
    clear written
    induction fs generalizing ls with
    | nil => simpa using ih
    | cons f fs ihfs => simpa using ihfs (ih.field f)
  | signs ops written ih =>
    induction ops with
    | nil => exact ih
    | cons op ops ihops => cases op <;> exact ihops.signed rfl rfl
  | @chain k ls e written tail rank operands ih ihs =>
    clear written operands rank
    induction tail generalizing ls with
    | nil => simpa using ih
    | cons t tail iht =>
      have hjoin := ih.join (l := .operator t.1) rfl rfl (ihs t List.mem_cons_self)
      simpa using iht hjoin fun u hu => ihs u (List.mem_cons_of_mem _ hu)

/-! Statements. -/

theorem Assignment.Written.fits {ls : List Lexeme} {a : Assignment} (h : a.Written ls) : Fits ls := by
  obtain @⟨x, free, op, ls, e, value⟩ := h
  refine (value.operand.cons_fits rfl).cons fun m hm => ?_
  cases hm
  exact .inl rfl

theorem Binding.Written.fits {ls : List Lexeme} {b : Binding} (h : b.Written ls) : Fits ls := by
  cases h with
  | declare free => exact List.isChain_pair.2 (.inr ⟨rfl, rfl⟩)
  | init free value =>
    exact List.isChain_cons_cons.2 ⟨.inr ⟨rfl, rfl⟩,
      (Assignment.Written.mk free .set value).fits⟩
  | assign written => exact written.fits

theorem WrittenOption.fits {α : Type} {written : List Lexeme → α → Prop}
    (h : ∀ {ls a}, written ls a → Fits ls) {ls : List Lexeme} {a : Option α}
    (hw : WrittenOption written ls a) : Fits ls := by
  cases hw with
  | none => exact .nil
  | some hw => exact h hw

/-- Lexemes of whole statements: what stands behind them does so behind a semicolon or a brace. -/
structure Sealed (ls : List Lexeme) : Prop where
  fits : Fits ls
  ends : ∀ l ∈ ls.getLast?, l.isEdge = true

namespace Sealed

variable {ls ms : List Lexeme}

theorem nil : Sealed [] := ⟨.nil, by simp⟩

theorem append (h : Sealed ls) (hms : Sealed ms) : Sealed (ls ++ ms) where
  fits := h.fits.append hms.fits fun l hl m _ => beside_of_edge (h.ends l hl) m
  ends l hl := by
    rw [List.getLast?_append, Option.mem_def, Option.or_eq_some_iff] at hl
    exact hl.elim (hms.ends l) fun hl => h.ends l hl.2

theorem flatMap {α : Type} {f : α → List Lexeme} {as : List α} (h : ∀ a ∈ as, Sealed (f a)) :
    Sealed (as.flatMap f) := by
  induction as with
  | nil => exact nil
  | cons a as ih =>
    exact (h a List.mem_cons_self).append (ih fun b hb => h b (List.mem_cons_of_mem _ hb))

theorem closed {l : Lexeme} (hl : l.isEdge = true) (h : Fits ls) : Sealed (ls ++ [l]) where
  fits := fits_edge hl h .nil
  ends m hm := by
    rw [List.getLast?_append] at hm
    cases hm
    exact hl

theorem cons {l m : Lexeme} (h : Sealed (m :: ls)) (hl : l.Beside m) : Sealed (l :: m :: ls) where
  fits := List.isChain_cons_cons.2 ⟨hl, h.fits⟩
  ends n hn := h.ends n (by rwa [List.getLast?_cons_cons] at hn)

theorem cons_edge {l : Lexeme} (h : Sealed ls) (hl : l.isEdge = true) : Sealed (l :: ls) where
  fits := h.fits.cons fun m _ => beside_of_edge hl m
  ends m hm := by
    cases ls with
    | nil => cases hm; exact hl
    | cons k ls => exact h.ends m (by rwa [List.getLast?_cons_cons] at hm)

theorem edge {l : Lexeme} (h : Fits ls) (hl : l.isEdge = true) (hms : Sealed (l :: ms)) :
    Sealed (ls ++ l :: ms) where
  fits := fits_edge hl h hms.fits.tail
  ends n hn := by
    refine hms.ends n ?_
    rw [List.getLast?_append, Option.mem_def, Option.or_eq_some_iff] at hn
    exact hn.resolve_right fun hn => by simp at hn

theorem braced (h : Fits ls) : Sealed (braced ls) :=
  @closed (.openBrace :: ls) _ rfl (h.cons fun m _ => beside_of_edge rfl m)

end Sealed

theorem Guarded.sealed_all (g : Guarded) (cond : Fits g.lexemes) (body : Fits g.body.lexemes) :
    Sealed g.all :=
  @Sealed.edge (.openParen :: g.lexemes) _ _ (cond.cons fun m _ => beside_of_edge rfl m) rfl
    ((Sealed.braced body).cons (beside_of_edge rfl _))

theorem Statement.Written.sealed {ls : List Lexeme} {s : Statement} (h : s.Written ls) :
    Sealed ls := by
  induction h with
  | bind written => exact .closed rfl written.fits
  | eval written => exact .closed rfl written.operand.fits
  | branch first others otherwise conds bodies last ihs ihlast =>
    have hall : ∀ g ∈ first :: others, Sealed g.all := fun g hg =>
      g.sealed_all (conds g hg).operand.fits (Sealed.flatMap (ihs g hg)).fits
    have hothers : Sealed (others.flatMap fun g => .keyword .elseWord :: .keyword .ifWord :: g.all) :=
      .flatMap fun g hg => ((hall g (List.mem_cons_of_mem _ hg)).cons (beside_edge _ rfl)).cons
        (.inr ⟨rfl, rfl⟩)
    have hotherwise : Sealed (otherwiseLexemes otherwise) := by
      cases otherwise with
      | none => exact .nil
      | some body =>
        exact (Sealed.braced (Sealed.flatMap (ihlast body rfl)).fits).cons (beside_edge _ rfl)
    exact (((hall first List.mem_cons_self).append hothers).append hotherwise).cons
      (beside_edge _ rfl)
  | whileLoop g cond body ih =>
    exact (g.sealed_all cond.operand.fits (Sealed.flatMap ih).fits).cons (beside_edge _ rfl)
  | forLoop hi hc hu body hb ih =>
    have hbody := (Sealed.braced (Sealed.flatMap ih).fits).cons_edge (l := .closeParen) rfl
    have hupdate := (Sealed.edge (hu.fits Assignment.Written.fits) rfl hbody).cons_edge
      (l := .semicolon) rfl
    have hcond := (Sealed.edge (hc.fits fun h => h.operand.fits) rfl hupdate).cons_edge
      (l := .semicolon) rfl
    have hinit := (Sealed.edge (hi.fits Binding.Written.fits) rfl hcond).cons_edge
      (l := .openParen) rfl
    exact hinit.cons (beside_edge _ rfl)
  | exitLoop => exact @Sealed.closed [.keyword .breakWord] _ rfl (.singleton _)
  | nextRound => exact @Sealed.closed [.keyword .continueWord] _ rfl (.singleton _)

end ScopeBlocks.Script
