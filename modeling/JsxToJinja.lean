import JsxToJinja.Base.Builtin
import JsxToJinja.Base.Distribution
import JsxToJinja.Base.Mapping
import JsxToJinja.Base.Resolve
import JsxToJinja.Classes.Condition
import JsxToJinja.Classes.Expression
import JsxToJinja.Classes.Forwarded
import JsxToJinja.Classes.Rule
import JsxToJinja.Classes.Switch
import JsxToJinja.Clock
import JsxToJinja.Code.Comment
import JsxToJinja.Code.Identifier
import JsxToJinja.Code.Literal
import JsxToJinja.Code.Scan
import JsxToJinja.Code.Ternary
import JsxToJinja.CommandLine.Arguments
import JsxToJinja.CommandLine.Run
import JsxToJinja.Component.ArrayShape
import JsxToJinja.Component.Attribute
import JsxToJinja.Component.Defaults
import JsxToJinja.Component.Import
import JsxToJinja.Component.Nested
import JsxToJinja.Component.Source
import JsxToJinja.Component.TypeScope
import JsxToJinja.Content.Basic
import JsxToJinja.Content.Bindings
import JsxToJinja.Content.Extract
import JsxToJinja.Content.Rewrite
import JsxToJinja.Definition
import JsxToJinja.Dict
import JsxToJinja.Digest
import JsxToJinja.FileTree
import JsxToJinja.Jinja.ClassList
import JsxToJinja.Jinja.Expr
import JsxToJinja.Jinja.Line
import JsxToJinja.Jinja.Literal
import JsxToJinja.Jinja.Names
import JsxToJinja.Jinja.Template
import JsxToJinja.Json.Basic
import JsxToJinja.Json.Decode
import JsxToJinja.Json.Parser
import JsxToJinja.Json.Printer
import JsxToJinja.Json.Written
import JsxToJinja.Main
import JsxToJinja.Markup.Element
import JsxToJinja.Markup.Mask
import JsxToJinja.Markup.Parser
import JsxToJinja.Number.Basic
import JsxToJinja.Number.Double
import JsxToJinja.Number.Shortest
import JsxToJinja.Path
import JsxToJinja.Project.Config
import JsxToJinja.Project.Convert
import JsxToJinja.Project.CustomComponent
import JsxToJinja.Project.Customization
import JsxToJinja.Project.Failure
import JsxToJinja.Project.Progress
import JsxToJinja.Project.Registry
import JsxToJinja.Project.Root
import JsxToJinja.Project.Workspace
import JsxToJinja.Review
import JsxToJinja.Text.Blank
import JsxToJinja.Text.LetterCase
import JsxToJinja.Text.Letters
import JsxToJinja.Text.Naming
import JsxToJinja.Text.Pattern
import JsxToJinja.Text.Slice
import JsxToJinja.Proofs.Text.Trimmed
import JsxToJinja.Proofs.Code.Sealed
import JsxToJinja.Proofs.Code.Cuts
import JsxToJinja.Proofs.Code.TernaryCut
import JsxToJinja.Proofs.Jinja.Chains
import JsxToJinja.Proofs.Number.Spelling
import JsxToJinja.Proofs.Text.Words
import JsxToJinja.Proofs.Jinja.MergedClasses
import JsxToJinja.Proofs.Jinja.FallbackValues
import JsxToJinja.Proofs.Classes.HandedValues
import JsxToJinja.Proofs.Classes.SwitchChain
import JsxToJinja.Proofs.Classes.TemplateGuards
import JsxToJinja.Proofs.Classes.TemplateLiterals
import JsxToJinja.Proofs.Classes.TemplateUses
import JsxToJinja.Proofs.Classes.Presence
import JsxToJinja.Proofs.Base.ResolvedClasses
import JsxToJinja.Proofs.Base.Agreement
import JsxToJinja.Proofs.Code.Names
import JsxToJinja.Proofs.Code.Literals
import JsxToJinja.Proofs.Project.ForwardedRoot
import JsxToJinja.Proofs.Classes.ClassArguments
import JsxToJinja.Proofs.Classes.ExtractedClasses
import JsxToJinja.Proofs.Content.Rendering
import JsxToJinja.Proofs.Project.Steps
import JsxToJinja.Proofs.Project.FailedConversion
import JsxToJinja.Proofs.Project.Places
import JsxToJinja.Proofs.Project.GeneratedFiles
import JsxToJinja.Proofs.Code.Logic
import JsxToJinja.Proofs.Jinja.Precedence
import JsxToJinja.Proofs.Jinja.Writing
import JsxToJinja.Proofs.Jinja.Paths
import JsxToJinja.Proofs.Jinja.Grouping
import JsxToJinja.Proofs.Markup.Trees
import JsxToJinja.Proofs.Content.EmbeddedText
import JsxToJinja.Proofs.Content.Reassignment
import JsxToJinja.Proofs.Content.Statements
import JsxToJinja.Proofs.Content.ScriptBindings
import JsxToJinja.Proofs.Jinja.Literals
import JsxToJinja.Proofs.Markup.Printed
import JsxToJinja.Proofs.Project.Course
import JsxToJinja.Proofs.Project.ShownContent
import JsxToJinja.Proofs.Project.InlineBases
import JsxToJinja.Proofs.Project.ReviewItems
import JsxToJinja.Proofs.Project.RootProps
import JsxToJinja.Proofs.Project.KeptFiles
import JsxToJinja.Proofs.Project.NestedTags
import JsxToJinja.Proofs.Project.Origins
import JsxToJinja.Proofs.Number.Reading
import JsxToJinja.Proofs.Number.Grammar
import JsxToJinja.Proofs.Json.ReadBack
import JsxToJinja.Proofs.Json.Values
import JsxToJinja.Proofs.Project.RegistryRuns
import JsxToJinja.Proofs.Jinja.BalancedLines
import JsxToJinja.Proofs.Jinja.BalancedMarkup
import JsxToJinja.Proofs.Jinja.Generator
import JsxToJinja.Proofs.Jinja.NestedContent
import JsxToJinja.Proofs.Jinja.NestedRoot
import JsxToJinja.Proofs.Component.Members
import JsxToJinja.Proofs.Component.DeclaredNames
import JsxToJinja.Proofs.Component.TypeResolution
import JsxToJinja.Proofs.Component.Declarations
import JsxToJinja.Proofs.Component.Comments
import JsxToJinja.Proofs.Component.TypeTexts
import JsxToJinja.Proofs.Component.Inheritance
import JsxToJinja.Proofs.Content.QualifiedText
import JsxToJinja.Proofs.Content.ItemFields
import JsxToJinja.Proofs.Jinja.Variables
import JsxToJinja.Proofs.Content.NestedTexts
import JsxToJinja.Proofs.Content.Termination
import JsxToJinja.Proofs.Content.WrittenMarkup
import JsxToJinja.Proofs.Content.LoopText
import JsxToJinja.Proofs.Content.WrittenCode
import JsxToJinja.Proofs.Content.CodeContent
import JsxToJinja.Proofs.Content.Angles
import JsxToJinja.Proofs.Content.PlainConditions
import JsxToJinja.Proofs.Content.CallbackParameters
import JsxToJinja.Proofs.Content.LoopScopes
import JsxToJinja.Proofs.Content.NestedLoops
import JsxToJinja.Proofs.Code.Uncommented
import JsxToJinja.Proofs.Project.Detours
import JsxToJinja.Proofs.Code.TopLevel
import JsxToJinja.Proofs.Code.NestedChoices
import JsxToJinja.Proofs.Code.Splitting
import JsxToJinja.Proofs.Markup.Offsets
import JsxToJinja.Proofs.Jinja.LiteralValues
import JsxToJinja.Proofs.Component.AttributeNames
import JsxToJinja.Proofs.Jinja.VariableStatements
import JsxToJinja.Proofs.Project.CustomizedAttributes
import JsxToJinja.Proofs.Base.ResolvedAttributes
import JsxToJinja.Proofs.Project.StartTag
import JsxToJinja.Proofs.Classes.SwitchClauses
import JsxToJinja.Proofs.Classes.SwitchText
import JsxToJinja.Proofs.Classes.SwitchStatements
import JsxToJinja.Proofs.Jinja.Depth
import JsxToJinja.Proofs.Jinja.Tokens
import JsxToJinja.Proofs.Jinja.Lists
import JsxToJinja.Proofs.Classes.PropsPrefix
import JsxToJinja.Proofs.Code.Brackets
import JsxToJinja.Proofs.Jinja.PropsPrefix
import JsxToJinja.Proofs.Jinja.TemplateParts
import JsxToJinja.Proofs.Markup.Spans
import JsxToJinja.Proofs.Text.KebabForm
import JsxToJinja.Proofs.Project.NestedCalls
