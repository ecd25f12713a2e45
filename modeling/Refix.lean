import Refix.Message.Envelope
import Refix.Message.Checked
import Refix.Log.Checked
import Refix.Log.Covering
import Refix.Log.Escaped
import Refix.Log.Edited
import Refix.Log.Respelled
import Refix.Log.Splits
import Refix.Log.Envelope
import Refix.Log.Validators
import Refix.Group.Nested
import Refix.Group.Partition
import Refix.Dictionary.Reference
import Refix.Dictionary.Codes
import Refix.Codegen.Dialect
import Refix.Codegen.EnumCodes
import Refix.Codegen.RustLegal
import Refix.Codegen.SharedGroups
import Refix.Codegen.Tables
import Refix.Value.Decimal
import Refix.Value.Timestamp
import Refix.Value.MonthYear
import Refix.Value.Texts
import Refix.Dictionary.Written
import Refix.Value.Integer
import Refix.Message.Delivery
import Refix.Message.Rewrite
import Refix.Codegen.Dispatch
import Refix.Codegen.Imports
import Refix.Codegen.ImportText
import Refix.Codegen.TableValues
import Refix.Codegen.Literals
import Refix.Engine.Times
import Refix.Engine.Scopes
import Refix.Dictionary.Reports
import Refix.Message.Waiting
import Refix.Log.Replayed
