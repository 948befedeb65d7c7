import LoxLang.Evaluation.Objects

/-!
# Declaring classes and traits

A class or a trait takes up the methods of the traits it includes. Two included traits must not share a method; a class
can replace such a method by its own, a trait cannot.
-/

namespace LoxLang

/-- Takes up methods that must be new. -/
def includeMethods (methods : Bindings Closure) : List (String × Closure) → Except DeclarationFault (Bindings Closure)
  | [] => .ok methods
  | (name, f) :: rest =>
    if methods.contains name then .error (.duplicateInTraits name)
    else includeMethods (methods.put name f) rest

namespace Eval

/-- The value of a name: from the scope that declares it, or from the global one. -/
def readName (name : Token) (depth : Option Nat) : Eval Value := do
  match depth with
  | some d => getAt (← scope) d name.lexeme
  | none => getNamed globalFrames name

/-- The trait that a name refers to. -/
def readTrait (ref : NameRef) : Eval Trait := do
  match ← readName ref.name ref.depth with
  | .trait t => return t
  | _ => crash (.declaration (.notTrait ref.name.lexeme))

/-- The methods of traits, in order, after some methods that have been taken up. -/
def includeTraits (methods : Bindings Closure) : List NameRef → Eval (Bindings Closure)
  | [] => return methods
  | ref :: rest => do
    let t ← readTrait ref
    match includeMethods methods t.methods.entries with
    | .ok methods => includeTraits methods rest
    | .error fault => crash (.declaration fault)

/-- Adds a class's own methods, which replace those of the same name. -/
def addMethods (isInitializer : FunDecl → Bool) (methods : Bindings Method) :
    List FunDecl → Eval (Bindings Method)
  | [] => return methods
  | decl :: rest => do
    let f ← makeClosure decl (isInitializer decl)
    addMethods isInitializer (methods.put decl.name.lexeme (.closure f)) rest

/-- Adds a trait's own methods, which must be new. -/
def addTraitMethods (methods : Bindings Closure) : List FunDecl → Eval (Bindings Closure)
  | [] => return methods
  | decl :: rest => do
    if methods.contains decl.name.lexeme then
      crash (.declaration (.declaredByTrait decl.name.lexeme))
    else
      let f ← makeClosure decl false
      addTraitMethods (methods.put decl.name.lexeme f) rest

/-- The class that a class extends. -/
def readSuperclass : Option NameRef → Eval (Option Class)
  | none => return none
  | some ref => do
    match ← readName ref.name ref.depth with
    | .classObject c => return some c
    | _ => crash (.declaration .superclassNotClass)

/-- Puts the frame in sight in which methods find the class that their class extends. It stays in sight when the
declaration fails. -/
def enterSubclass : Option Class → Eval Unit
  | none => return ()
  | some base => do
    let id ← newFrame (Bindings.empty.put superName (.classObject base))
    setScope (id :: (← scope))

/-- Makes the class of a declaration from the frames in sight. Its own methods belong to a class of their own, which
extends the same class. -/
def makeClass (decl : ClassDecl) (base : Option Class) : Eval Class := do
  let own ← addMethods (fun _ => false) .empty decl.classMethods
  let metaclass : Class := ⟨← newObject, decl.name.lexeme ++ " metaclass", base, none, own⟩
  let included ← includeTraits .empty decl.traits
  let inherited : Bindings Method := ⟨included.entries.map fun (name, f) => (name, .closure f)⟩
  let methods ← addMethods (fun method => method.name.lexeme = initName) inherited decl.methods
  return ⟨← newObject, decl.name.lexeme, base, some metaclass, methods⟩

/-- Declares a class. Its name is bound to nil until the class is made. -/
def declareClass (decl : ClassDecl) : Eval Unit := do
  let base ← readSuperclass decl.superclass
  define decl.name.lexeme .nil
  let outer ← scope
  enterSubclass base
  let c ← makeClass decl base
  setScope outer
  assignNamed outer decl.name (.classObject c)

/-- Declares a trait. Its name is bound to nil until the trait is made. -/
def declareTrait (decl : TraitDecl) : Eval Unit := do
  define decl.name.lexeme .nil
  let included ← includeTraits .empty decl.traits
  let methods ← addTraitMethods included decl.methods
  let t : Trait := ⟨← freshId, decl.name, methods⟩
  assignNamed (← scope) decl.name (.trait t)

end Eval
end LoxLang
