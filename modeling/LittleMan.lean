import LittleMan.Main
import LittleMan.Proofs.Logged
import LittleMan.Proofs.Rest
import LittleMan.Proofs.Input
import LittleMan.Proofs.Numeral
import LittleMan.Proofs.Lines
import LittleMan.Proofs.Words
import LittleMan.Proofs.Assembly.Program
import LittleMan.Proofs.Assembly.Draft
import LittleMan.Proofs.Assembly.Resolution
import LittleMan.Proofs.Assembly.Errors
import LittleMan.Proofs.Assembly.Correspondence
import LittleMan.Proofs.Assembly.Layout
import LittleMan.Proofs.Assembly.Fitting
import LittleMan.Proofs.Assembly.Capacity
import LittleMan.Proofs.Assembly.Undefined
import LittleMan.Proofs.Assembly.Rewording
import LittleMan.Proofs.Assembly.Spacing
import LittleMan.Proofs.Assembly.Renaming
import LittleMan.Proofs.Assembly.Literals
import LittleMan.Proofs.Assembly.Range
import LittleMan.Proofs.Assembly.Grammar
import LittleMan.Proofs.Machine.Step
import LittleMan.Proofs.Machine.Reachable
import LittleMan.Proofs.Machine.PlainStep
import LittleMan.Proofs.Machine.Run
import LittleMan.Proofs.Machine.Fault
import LittleMan.Proofs.Machine.Streams
import LittleMan.Proofs.Machine.Relay
import LittleMan.Proofs.Machine.Settling
import LittleMan.Proofs.Machine.Agreement
import LittleMan.Proofs.Machine.Arithmetic
import LittleMan.Proofs.Machine.Halting
import LittleMan.Proofs.Machine.Reading
import LittleMan.Proofs.Execution
import LittleMan.Proofs.Image
import LittleMan.Proofs.Directory
import LittleMan.Proofs.Command
import LittleMan.Proofs.Machine.Unread
import LittleMan.Proofs.Machine.Retry
import LittleMan.Proofs.Arguments
import LittleMan.Proofs.History
import LittleMan.Proofs.Multiplication
import LittleMan.Proofs.Table
import LittleMan.Proofs.Assembly.Diagnostics
import LittleMan.Proofs.Wrap
import LittleMan.Proofs.Assembly.Raw
import LittleMan.Proofs.Machine.Journal
